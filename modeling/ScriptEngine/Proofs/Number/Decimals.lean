import ScriptEngine.Proofs.Number.Integers
import ScriptEngine.Proofs.Number.Shortest

/-!
# Numbers read back

The text of a number that an instruction carries is read back as that very number. A finite number
is spelt by digits, a point with further digits and an exponent; reading a spelling gives its
decimal, and the shortest decimal of a double rounds to the double.
-/

namespace ScriptEngine
namespace Number

open Text (plainByte IsPlain)

/-!
# Spellings
-/

/-- The exponent that a spelling states, as text. -/
def powerText : Option Int → List Char
  | none => []
  | some e => (exponentText e).toList

/-- The exponent that a spelling states. -/
def powerOf (power : Option Int) : Int :=
  power.getD 0

/-- A point stands only before digits. -/
def fractionText : List Char → List Char
  | [] => []
  | c :: cs => '.' :: c :: cs

theorem fractionText_eq {fraction : List Char} (h : fraction ≠ []) :
    fractionText fraction = '.' :: fraction := by
  cases fraction with
  | nil => exact absurd rfl h
  | cons c cs => rfl

/-- The characters of `whole.fraction` with an exponent. -/
def spelling (whole fraction : List Char) (power : Option Int) : List Char :=
  whole ++ (fractionText fraction ++ powerText power)

theorem exponentText_toList (e : Int) :
    (exponentText e).toList =
      ['e', if e < 0 then '-' else '+'] ++ (if e.natAbs < 10 then ['0'] else []) ++
        Nat.toDigits 10 e.natAbs := by
  unfold exponentText digitList
  by_cases he : e < 0
  · by_cases hsmall : e.natAbs < 10
    · simp [he, hsmall]
    · simp [he, hsmall]
  · by_cases hsmall : e.natAbs < 10
    · simp [he, hsmall]
    · simp [he, hsmall]

/-- The characters that spell numbers. -/
def IsSpelt (c : Char) : Prop :=
  c.isDigit = true ∨ c ∈ ['.', 'e', '-', '+']

theorem IsSpelt.isPlain {c : Char} (h : IsSpelt c) : IsPlain c := by
  rcases h with hdigit | hmark
  · exact Text.isPlain_of_isDigit hdigit
  · unfold IsPlain
    simp only [List.mem_cons, List.not_mem_nil, or_false] at hmark
    rcases hmark with rfl | rfl | rfl | rfl
    all_goals decide

theorem digit_byte {c : Char} (h : c.isDigit = true) :
    plainByte c ≠ 95 ∧ lowerByte (plainByte c) ≠ 120 ∧ lowerByte (plainByte c) = plainByte c ∧
      plainByte c ≠ 46 := by
  obtain ⟨hlow, hhigh⟩ : 48 ≤ (plainByte c).toNat ∧ (plainByte c).toNat ≤ 57 := by
    simpa [isDigit, UInt8.le_iff_toNat_le] using (isDigit_plainByte h).1
  have hne : ∀ b : UInt8, b.toNat < 48 ∨ 57 < b.toNat → plainByte c ≠ b := by
    rintro b hb rfl
    omega
  have hlower : lowerByte (plainByte c) = plainByte c := by
    unfold lowerByte
    rw [if_neg]
    simp only [UInt8.le_iff_toNat_le, Bool.and_eq_true, decide_eq_true_eq, UInt8.reduceToNat]
    omega
  refine ⟨hne 95 (by decide), ?_, hlower, hne 46 (by decide)⟩
  rw [hlower]
  exact hne 120 (by decide)

theorem IsSpelt.byte {c : Char} (h : IsSpelt c) :
    plainByte c ≠ 95 ∧ lowerByte (plainByte c) ≠ 120 := by
  rcases h with hdigit | hmark
  · exact ⟨(digit_byte hdigit).1, (digit_byte hdigit).2.1⟩
  · simp only [List.mem_cons, List.not_mem_nil, or_false] at hmark
    rcases hmark with rfl | rfl | rfl | rfl
    all_goals decide

section
variable {whole fraction : List Char}

theorem isSpelt_of_mem_spelling (hwhole : ∀ c ∈ whole, c.isDigit = true)
    (hfraction : ∀ c ∈ fraction, c.isDigit = true) (power : Option Int) :
    ∀ c ∈ spelling whole fraction power, IsSpelt c := by
  intro c hc
  unfold spelling at hc
  rcases List.mem_append.mp hc with hc | hc
  · exact .inl (hwhole c hc)
  rcases List.mem_append.mp hc with hc | hc
  · cases fraction with
    | nil => cases hc
    | cons d ds =>
      rcases List.mem_cons.mp hc with rfl | hc
      · exact .inr (by decide)
      · exact .inl (hfraction c hc)
  · cases power with
    | none => cases hc
    | some e =>
      rw [powerText, exponentText_toList] at hc
      rcases List.mem_append.mp hc with hc | hc
      · rcases List.mem_append.mp hc with hc | hc
        · rcases List.mem_cons.mp hc with rfl | hc
          · exact .inr (by decide)
          · obtain rfl := List.mem_singleton.mp hc
            split
            · exact .inr (by decide)
            · exact .inr (by decide)
        · split at hc
          · obtain rfl := List.mem_singleton.mp hc
            exact .inl (by decide)
          · cases hc
      · exact .inl (isDigit_of_mem_toDigits hc)

end

/-!
# Reading a spelling
-/

theorem digitValue?_plainByte {c : Char} (h : c.isDigit = true) (hexadecimal : Bool) :
    digitValue? hexadecimal (plainByte c) = some (c.toNat - '0'.toNat) := by
  obtain ⟨hdigit, hvalue⟩ := isDigit_plainByte h
  unfold digitValue?
  rw [if_pos hdigit, hvalue]

theorem scanMantissa_digits {cs : List Char} (h : ∀ c ∈ cs, c.isDigit = true) (m : Mantissa)
    (rest : List UInt8) :
    scanMantissa false m (cs.map plainByte ++ rest) =
      scanMantissa false
        { value := Nat.ofDigitChars 10 cs m.value
          fraction := if m.point then m.fraction + cs.length else m.fraction
          point := m.point
          digits := m.digits || !cs.isEmpty } rest := by
  induction cs generalizing m with
  | nil =>
    cases m
    simp [Nat.ofDigitChars]
  | cons c cs ih =>
    have hc := h c List.mem_cons_self
    have hcs : ∀ d ∈ cs, d.isDigit = true := fun d hd => h d (List.mem_cons_of_mem c hd)
    obtain ⟨hscore, -, -, hpoint⟩ := digit_byte hc
    rw [List.map_cons, List.cons_append, scanMantissa]
    rw [if_neg (by simpa using hscore), if_neg (by simpa using hpoint), digitValue?_plainByte hc]
    simp only [Bool.false_eq_true, if_false]
    rw [ih hcs]
    congr 1
    cases m with
    | mk value fraction point digits =>
      cases point
      · simp [Nat.ofDigitChars, Nat.mul_comm]
      · simp [Nat.ofDigitChars, Nat.mul_comm]
        omega

theorem le_ofDigitChars (cs : List Char) (n : Nat) : n ≤ Nat.ofDigitChars 10 cs n := by
  induction cs generalizing n with
  | nil => exact Nat.le_refl _
  | cons c cs ih =>
    refine Nat.le_trans ?_ (ih _)
    show n ≤ 10 * n + (c.toNat - '0'.toNat)
    omega

/-- An exponent below the point from which digits are dropped is read as it is. -/
theorem scanExponent_digits {cs : List Char} (h : ∀ c ∈ cs, c.isDigit = true) (n : Nat)
    (hsmall : Nat.ofDigitChars 10 cs n < 10000) :
    scanExponent n (cs.map plainByte) = (Nat.ofDigitChars 10 cs n, []) := by
  induction cs generalizing n with
  | nil => rfl
  | cons c cs ih =>
    have hc := h c List.mem_cons_self
    have hcs : ∀ d ∈ cs, d.isDigit = true := fun d hd => h d (List.mem_cons_of_mem c hd)
    obtain ⟨hscore, -, -, -⟩ := digit_byte hc
    obtain ⟨hdigit, hvalue⟩ := isDigit_plainByte hc
    have hn : n < 10000 := Nat.lt_of_le_of_lt (le_ofDigitChars (c :: cs) n) hsmall
    rw [List.map_cons, scanExponent, if_neg (by simpa using hscore), if_pos hdigit, if_pos hn,
      hvalue, Nat.mul_comm]
    exact ih hcs _ hsmall

theorem readExponent_text {e : Int} (h : e.natAbs < 10000) :
    readExponent 101 false ((exponentText e).toList.map plainByte) = some (e, []) := by
  have hdigits : ∀ c ∈ (if e.natAbs < 10 then ['0'] else []) ++ Nat.toDigits 10 e.natAbs,
      c.isDigit = true := by
    intro c hc
    rcases List.mem_append.mp hc with hc | hc
    · split at hc
      · obtain rfl := List.mem_singleton.mp hc
        decide
      · cases hc
    · exact isDigit_of_mem_toDigits hc
  have hvalue : Nat.ofDigitChars 10
      ((if e.natAbs < 10 then ['0'] else []) ++ Nat.toDigits 10 e.natAbs) 0 = e.natAbs := by
    rw [Nat.ofDigitChars_append]
    split
    · exact Nat.ofDigitChars_ten_toDigits
    · exact Nat.ofDigitChars_ten_toDigits
  have hscan := scanExponent_digits hdigits 0 (by rw [hvalue]; exact h)
  rw [hvalue] at hscan
  rw [exponentText_toList, List.append_assoc]
  generalize hcs : (if e.natAbs < 10 then ['0'] else []) ++ Nat.toDigits 10 e.natAbs = cs
    at hdigits hscan
  cases cs with
  | nil =>
    have hnil := (List.append_eq_nil_iff.mp hcs).2
    exact absurd hnil Nat.toDigits_ne_nil
  | cons c cs =>
    have hc := (isDigit_plainByte (hdigits c List.mem_cons_self)).1
    rw [List.map_cons] at hscan
    by_cases he : e < 0
    · have hneg : -(e.natAbs : Int) = e := by omega
      simp only [if_pos he, List.cons_append, List.nil_append, List.map_cons, readExponent,
        show lowerByte (plainByte 'e') = 101 from rfl, show plainByte '-' = 45 from rfl,
        beq_self_eq_true, if_true, splitSign, hc, hscan, hneg]
    · have hnonneg : (e.natAbs : Int) = e := by omega
      simp only [if_neg he, List.cons_append, List.nil_append, List.map_cons, readExponent,
        show lowerByte (plainByte 'e') = 101 from rfl, show plainByte '+' = 43 from rfl,
        beq_self_eq_true, if_true, splitSign, hc, hscan, hnonneg, Bool.false_eq_true, if_false]

section
variable {whole fraction : List Char} {power : Option Int}

theorem readDigits_spelling (negative : Bool) (hwhole : ∀ c ∈ whole, c.isDigit = true)
    (hfraction : ∀ c ∈ fraction, c.isDigit = true) (hne : whole ≠ [])
    (hpower : (powerOf power).natAbs < 10000) :
    readDigits negative false ((spelling whole fraction power).map plainByte) =
      some (ofDecimal negative (Nat.ofDigitChars 10 (whole ++ fraction) 0)
        (powerOf power - fraction.length)) := by
  have hsome : (!whole.isEmpty) = true := by
    cases whole with
    | nil => exact absurd rfl hne
    | cons c cs => rfl
  -- What follows the digits is read as the exponent.
  have hrest : ∀ m : Mantissa, scanMantissa false m ((powerText power).map plainByte) =
      (m, (powerText power).map plainByte) := by
    intro m
    cases power with
    | none => rfl
    | some e =>
      rw [powerText, exponentText_toList]
      rfl
  have hexponent : readExponent 101 false ((powerText power).map plainByte) =
      some (powerOf power, []) := by
    cases power with
    | none => rfl
    | some e => exact readExponent_text hpower
  have hscan : scanMantissa false ⟨0, 0, false, false⟩
      ((spelling whole fraction power).map plainByte) =
      (⟨Nat.ofDigitChars 10 (whole ++ fraction) 0, fraction.length, !fraction.isEmpty, true⟩,
        (powerText power).map plainByte) := by
    unfold spelling
    rw [List.map_append, scanMantissa_digits hwhole, Nat.ofDigitChars_append]
    cases fraction with
    | nil =>
      simp only [fractionText, hsome, List.isEmpty_nil, List.nil_append, Bool.false_or,
        Bool.false_eq_true, if_false, Nat.ofDigitChars_nil, List.length_nil, Bool.not_true]
      exact hrest _
    | cons c cs =>
      unfold fractionText
      rw [List.cons_append, List.map_cons, List.map_append, scanMantissa,
        if_neg (by decide), if_pos (by decide)]
      simp only [Bool.false_eq_true, if_false]
      rw [scanMantissa_digits hfraction, hrest]
      simp [hsome]
  unfold readDigits
  rw [hscan]
  simp only [Bool.not_true, Bool.false_eq_true, if_false, hexponent]

theorem readUnsigned_spelling (negative : Bool) (hwhole : ∀ c ∈ whole, c.isDigit = true)
    (hfraction : ∀ c ∈ fraction, c.isDigit = true) (hne : whole ≠ [])
    (hpower : (powerOf power).natAbs < 10000) :
    readUnsigned negative ((spelling whole fraction power).map plainByte) =
      some (ofDecimal negative (Nat.ofDigitChars 10 (whole ++ fraction) 0)
        (powerOf power - fraction.length)) := by
  have hbytes : ∀ b ∈ (spelling whole fraction power).map plainByte,
      b ≠ 95 ∧ lowerByte b ≠ 120 := by
    intro b hb
    obtain ⟨c, hc, rfl⟩ := List.mem_map.mp hb
    exact (isSpelt_of_mem_spelling hwhole hfraction power c hc).byte
  have hdigits := readDigits_spelling negative hwhole hfraction hne hpower
  generalize (spelling whole fraction power).map plainByte = bytes at hbytes hdigits ⊢
  have hscore : bytes.contains 95 = false := by
    rw [← Bool.not_eq_true, List.contains_iff_mem]
    exact fun hmem => (hbytes 95 hmem).1 rfl
  unfold readUnsigned
  rw [hscore]
  simp only [Bool.false_and, Bool.false_eq_true, if_false]
  split
  · rename_i b c rest
    have hmark : (lowerByte b == 120) = false :=
      beq_false_of_ne (hbytes b (List.mem_cons_of_mem _ List.mem_cons_self)).2
    rw [hmark]
    simp only [Bool.false_eq_true, if_false]
    exact hdigits
  · exact hdigits

end

/-!
# Spellings of decimals
-/

theorem ofDigitChars_zeros (n k : Nat) :
    Nat.ofDigitChars 10 (Nat.toDigits 10 n ++ List.replicate k '0') 0 = n * 10 ^ k := by
  rw [Nat.ofDigitChars_append, Nat.ofDigitChars_ten_toDigits, Nat.ofDigitChars_replicate_zero,
    Nat.mul_comm]

/-- How a decimal is spelt. Its digits may have got zeros behind them. -/
structure Spelt (d : Decimal) (whole fraction : List Char) (power : Option Int) (zeros : Nat) :
    Prop where
  text : d.text.toList = spelling whole fraction power
  wholeDigits : ∀ c ∈ whole, c.isDigit = true
  fractionDigits : ∀ c ∈ fraction, c.isDigit = true
  nonempty : whole ≠ []
  stated : power = none ∨ power = some (d.exponent + (Nat.toDigits 10 d.digits).length - 1)
  digits : Nat.ofDigitChars 10 (whole ++ fraction) 0 = d.digits * 10 ^ zeros
  exponent : powerOf power - fraction.length = d.exponent - zeros
  filled : zeros = 0 ∨ (zeros : Int) = d.exponent

section
variable {d : Decimal} {e : Int}

theorem scientific_spelt (he : e = d.exponent + (Nat.toDigits 10 d.digits).length - 1)
    (htext : d.text = scientific (Nat.toDigits 10 d.digits) e) :
    ∃ whole fraction, Spelt d whole fraction (some e) 0 := by
  have hdigits : ∀ c ∈ Nat.toDigits 10 d.digits, c.isDigit = true :=
    fun c hc => isDigit_of_mem_toDigits hc
  have hvalue : Nat.ofDigitChars 10 (Nat.toDigits 10 d.digits) 0 = d.digits :=
    Nat.ofDigitChars_ten_toDigits
  have hne : Nat.toDigits 10 d.digits ≠ [] := Nat.toDigits_ne_nil
  generalize hds : Nat.toDigits 10 d.digits = ds at he htext hdigits hvalue hne
  cases ds with
  | nil => exact absurd rfl hne
  | cons first rest =>
    refine ⟨[first], rest, ?_, ?_, ?_, List.cons_ne_nil _ _, .inr ?_, ?_, ?_, .inl rfl⟩
    · rw [htext]
      unfold scientific spelling
      cases rest with
      | nil => simp [fractionText, powerText]
      | cons c cs => simp [fractionText, powerText]
    · intro c hc
      obtain rfl := List.mem_singleton.mp hc
      exact hdigits _ List.mem_cons_self
    · exact fun c hc => hdigits c (List.mem_cons_of_mem _ hc)
    · rw [hds, he]
    · rw [Nat.pow_zero, Nat.mul_one]
      exact hvalue
    · rw [he]
      simp only [powerOf, Option.getD_some, List.length_cons]
      omega

theorem positional_spelt (he : e = d.exponent + (Nat.toDigits 10 d.digits).length - 1)
    (htext : d.text = positional (Nat.toDigits 10 d.digits) e) :
    ∃ whole fraction zeros, Spelt d whole fraction none zeros := by
  have hdigits : ∀ c ∈ Nat.toDigits 10 d.digits, c.isDigit = true :=
    fun c hc => isDigit_of_mem_toDigits hc
  have hvalue : Nat.ofDigitChars 10 (Nat.toDigits 10 d.digits) 0 = d.digits :=
    Nat.ofDigitChars_ten_toDigits
  have hlength : 0 < (Nat.toDigits 10 d.digits).length :=
    List.length_pos_iff.mpr Nat.toDigits_ne_nil
  have hzeros : ∀ k, ∀ c ∈ List.replicate k '0', c.isDigit = true := by
    intro k c hc
    rw [(List.mem_replicate.mp hc).2]
    decide
  by_cases hneg : e < 0
  · -- All digits stand behind the point.
    refine ⟨['0'], List.replicate (-e - 1).toNat '0' ++ Nat.toDigits 10 d.digits, 0, ?_, ?_, ?_,
      List.cons_ne_nil _ _, .inl rfl, ?_, ?_, .inl rfl⟩
    · have hne : List.replicate (-e - 1).toNat '0' ++ Nat.toDigits 10 d.digits ≠ [] :=
        fun hnil => Nat.toDigits_ne_nil (List.append_eq_nil_iff.mp hnil).2
      rw [htext, positional, if_pos hneg, spelling, fractionText_eq hne, String.toList_append,
        String.toList_ofList, String.toList_ofList, powerText, List.append_nil]
      rfl
    · intro c hc
      obtain rfl := List.mem_singleton.mp hc
      decide
    · intro c hc
      rcases List.mem_append.mp hc with hc | hc
      · exact hzeros _ c hc
      · exact hdigits c hc
    · rw [← List.append_assoc, Nat.ofDigitChars_append, ← List.replicate_one,
        ← List.replicate_add, Nat.ofDigitChars_replicate_zero, Nat.mul_zero, hvalue]
      omega
    · simp only [powerOf, Option.getD_none, List.length_append, List.length_replicate]
      omega
  · by_cases hwhole : (Nat.toDigits 10 d.digits).length ≤ e.toNat + 1
    · -- There is no fraction, and zeros fill the digits up to the point.
      refine ⟨Nat.toDigits 10 d.digits ++
        List.replicate (e.toNat + 1 - (Nat.toDigits 10 d.digits).length) '0', [],
        e.toNat + 1 - (Nat.toDigits 10 d.digits).length, ?_, ?_, ?_, ?_, .inl rfl, ?_, ?_, .inr (by omega)⟩
      · rw [htext, positional, if_neg hneg]
        dsimp only
        rw [List.drop_eq_nil_of_le hwhole, List.take_of_length_le hwhole, if_pos List.isEmpty_nil,
          String.toList_ofList, spelling, fractionText, powerText, List.append_nil,
          List.append_nil]
      · intro c hc
        rcases List.mem_append.mp hc with hc | hc
        · exact hdigits c hc
        · exact hzeros _ c hc
      · intro c hc
        cases hc
      · exact fun hnil => Nat.toDigits_ne_nil (List.append_eq_nil_iff.mp hnil).1
      · rw [List.append_nil, ofDigitChars_zeros]
      · simp only [powerOf, Option.getD_none, List.length_nil]
        omega
    · refine ⟨(Nat.toDigits 10 d.digits).take (e.toNat + 1),
        (Nat.toDigits 10 d.digits).drop (e.toNat + 1), 0, ?_, ?_, ?_, ?_, .inl rfl, ?_, ?_, .inl rfl⟩
      · have hne : (Nat.toDigits 10 d.digits).drop (e.toNat + 1) ≠ [] := by
          rw [ne_eq, List.drop_eq_nil_iff]
          exact hwhole
        rw [htext, positional, if_neg hneg]
        dsimp only
        rw [if_neg (by rw [List.isEmpty_iff]; exact hne), String.toList_ofList, spelling,
          fractionText_eq hne, powerText, Nat.sub_eq_zero_of_le (by omega), List.replicate_zero,
          List.append_nil, List.append_nil]
      · exact fun c hc => hdigits c (List.mem_of_mem_take hc)
      · exact fun c hc => hdigits c (List.mem_of_mem_drop hc)
      · intro hnil
        have hzero := congrArg List.length hnil
        rw [List.length_take, List.length_nil] at hzero
        omega
      · rw [List.take_append_drop, hvalue, Nat.pow_zero, Nat.mul_one]
      · simp only [powerOf, Option.getD_none, List.length_drop]
        omega

end

theorem text_spelt {d : Decimal} (hpos : 0 < d.digits) :
    ∃ whole fraction power zeros, Spelt d whole fraction power zeros := by
  have hnonzero : (d.digits == 0) = false := beq_false_of_ne (Nat.ne_of_gt hpos)
  have htext : d.text = let e := d.exponent + (Nat.toDigits 10 d.digits).length - 1
      if positionalFrom ≤ e && e ≤ positionalTo then positional (Nat.toDigits 10 d.digits) e
      else scientific (Nat.toDigits 10 d.digits) e := by
    unfold Decimal.text
    rw [hnonzero]
    rfl
  dsimp only at htext
  split at htext
  · obtain ⟨whole, fraction, zeros, hspelt⟩ := positional_spelt rfl htext
    exact ⟨whole, fraction, none, zeros, hspelt⟩
  · obtain ⟨whole, fraction, hspelt⟩ := scientific_spelt rfl htext
    exact ⟨whole, fraction, _, 0, hspelt⟩

/-!
# Operands
-/

theorem toList_digits {cs : List Char} (h : ∀ c ∈ cs, IsSpelt c) (negative : Bool) :
    (Text.ofString (if negative then "-" ++ String.ofList cs else String.ofList cs)).toList =
      (if negative then [45] else []) ++ cs.map plainByte := by
  cases negative with
  | false => exact Text.toList_ofString_ofList fun c hc => (h c hc).isPlain
  | true =>
    have hsigned : "-" ++ String.ofList cs = String.ofList ('-' :: cs) := by
      rw [← String.toList_inj]
      simp
    rw [if_pos rfl, hsigned, Text.toList_ofString_ofList]
    · rfl
    · intro c hc
      rcases List.mem_cons.mp hc with rfl | hc
      · show '-'.toNat ≤ 127
        decide
      · exact (h c hc).isPlain

/-- A text that starts with a digit behind its sign is no special value and keeps its sign. -/
theorem read?_digits {t : Text} {negative : Bool} {c : Char} {rest : List UInt8} {x : Float}
    (hc : c.isDigit = true)
    (ht : t.toList = (if negative then [45] else []) ++ plainByte c :: rest)
    (hread : readUnsigned negative (plainByte c :: rest) = some x) (hfinite : isFinite x = true) :
    read? t = some x := by
  obtain ⟨-, -, hlower, hpoint⟩ := digit_byte hc
  have hdigit := (isDigit_plainByte hc).1
  have hnan : (Text.ofString "nan").toList = [110, 97, 110] := by decide
  have hinf : (Text.ofString "inf").toList = [105, 110, 102] := by decide
  have hinfinity : (Text.ofString "infinity").toList =
      [105, 110, 102, 105, 110, 105, 116, 121] := by decide
  have hsign : ∀ tail, splitSign ((if negative then [45] else []) ++ plainByte c :: tail) =
      (negative, plainByte c :: tail) := by
    intro tail
    cases negative with
    | true => rfl
    | false =>
      simp only [Bool.false_eq_true, if_false, List.nil_append]
      unfold splitSign
      split
      · rename_i heq
        rw [(List.cons.inj heq).1] at hdigit
        exact absurd hdigit (by decide)
      · rename_i heq
        rw [(List.cons.inj heq).1] at hdigit
        exact absurd hdigit (by decide)
      · rfl
  have hne : ∀ (b : UInt8) (tail tail' : List UInt8), isDigit b = false →
      plainByte c :: tail ≠ b :: tail' := by
    intro b tail tail' hb heq
    rw [(List.cons.inj heq).1, hb] at hdigit
    cases hdigit
  have hmap : t.toList.map lowerByte =
      (if negative then [45] else []) ++ plainByte c :: rest.map lowerByte := by
    rw [ht, List.map_append, List.map_cons, hlower]
    cases negative
    · rfl
    · rfl
  have hspecial : readSpecial? t = none := by
    unfold readSpecial?
    dsimp only
    rw [hmap, hsign, hnan, hinf, hinfinity]
    dsimp only
    have hbytes : (if negative then [45] else []) ++ plainByte c :: rest.map lowerByte ≠
        [110, 97, 110] := by
      cases negative with
      | true =>
        intro heq
        exact absurd (List.cons.inj heq).1 (by decide)
      | false => exact hne 110 _ _ (by decide)
    rw [if_neg (by rw [beq_iff_eq]; exact hbytes), if_neg]
    rw [Bool.or_eq_true, beq_iff_eq, beq_iff_eq]
    exact not_or.mpr ⟨hne 105 _ _ (by decide), hne 105 _ _ (by decide)⟩
  unfold read? nearest?
  rw [hspecial, ht, hsign]
  dsimp only
  rw [hread, Option.filter_some, hfinite]
  rfl

theorem length_toDigits_le_log2 (n : Nat) : (Nat.toDigits 10 n).length ≤ n.log2 + 1 := by
  rw [Nat.length_toDigits_le_iff (by decide) (by omega)]
  calc n < 2 ^ (n.log2 + 1) := Nat.lt_log2_self
    _ ≤ 10 ^ (n.log2 + 1) := Nat.pow_le_pow_left (by decide) _

theorem readUnsigned_shortest (negative : Bool) {significand : Nat} {exponent : Int}
    (h : Canonical significand exponent) :
    ∃ c cs, (shortest significand exponent).text = String.ofList (c :: cs) ∧
      c.isDigit = true ∧ (∀ d ∈ c :: cs, IsSpelt d) ∧
      readUnsigned negative ((c :: cs).map plainByte) =
        some (ofMagnitude negative (magnitudeBits significand exponent)) := by
  rcases Nat.eq_zero_or_pos significand with rfl | hpos
  · have hzero : (Decimal.mk 0 0).text = String.ofList ['0'] := by decide
    refine ⟨'0', [], hzero, rfl, ?_, ?_⟩
    · intro d hd
      obtain rfl := List.mem_singleton.mp hd
      exact .inl rfl
    · rfl
  · obtain ⟨hnear, hleast, hgreatest⟩ := shortest_near h hpos
    generalize shortest significand exponent = d at hnear hleast hgreatest ⊢
    have hdigits : 0 < d.digits := Near.decimal_pos hnear hpos
    obtain ⟨whole, fraction, power, zeros, hspelt⟩ := text_spelt hdigits
    obtain ⟨htext, hwhole, hfraction, hne, hstated, hvalue, hexponent, hfilled⟩ := hspelt
    have hnear' : Near significand exponent
        ((d.digits * 10 ^ zeros : Nat) * 10 ^ (d.exponent - zeros)) := by
      have hsame : ((d.digits * 10 ^ zeros : Nat) : ℚ) * 10 ^ (d.exponent - zeros) = d.value := by
        unfold Decimal.value
        rw [zpow_sub₀ (by norm_num), zpow_natCast]
        push_cast
        field_simp
      rw [hsame]
      exact hnear
    have hpower : (powerOf power).natAbs < 10000 := by
      have hreach := (Near.reach h hpos hdigits (by omega) (by omega) hnear).2
      have hlog : d.digits.log2 ≤ 2500 := by omega
      have hlength := length_toDigits_le_log2 d.digits
      rcases hstated with rfl | rfl
      · decide
      · simp only [powerOf, Option.getD_some]
        omega
    have hread := readUnsigned_spelling negative hwhole hfraction hne hpower
    rw [hvalue, hexponent, ofDecimal_near negative h hpos (by omega) (by omega) hnear'] at hread
    have hspells := isSpelt_of_mem_spelling hwhole hfraction power
    have htext : d.text = String.ofList (spelling whole fraction power) := by
      rw [← htext, String.ofList_toList]
    cases whole with
    | nil => exact absurd rfl hne
    | cons c cs => exact ⟨c, _, htext, hwhole c List.mem_cons_self, hspells, hread⟩

/-- A number is read back from the operand that carries it. -/
theorem read?_operand (x : Float) : read? (operand x) = some x := by
  unfold operand write
  cases hx : anatomy x with
  | undefined =>
    rw [eq_undefined_of_anatomy hx]
    decide
  | infinite negative =>
    rw [eq_infinity hx]
    cases negative
    · decide
    · decide
  | finite negative significand exponent =>
    obtain ⟨hcanonical, rfl⟩ := eq_ofMagnitude hx
    obtain ⟨c, cs, htext, hc, hcs, hread⟩ := readUnsigned_shortest negative hcanonical
    dsimp only
    rw [htext]
    refine read?_digits hc (toList_digits hcs negative) hread ?_
    unfold isFinite
    rw [hx]

end Number
end ScriptEngine
