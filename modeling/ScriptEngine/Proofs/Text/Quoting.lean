import Mathlib.Algebra.Ring.Nat
import ScriptEngine.Proofs.Text.Pieces
import ScriptEngine.Text.Quoted

/-!
# Quoted texts tell texts apart

Inside quotes every piece of a text is written as a sign: a character as it is, a letter behind a
backslash, or digits behind a backslash and a letter that says how many. A sign says by itself where
it ends and what it stands for, none begins with a quote, and none holds a line end. So a quoted text
ends where its own closing quote stands, whatever follows, and tells which text it is.
-/

namespace ScriptEngine
namespace Text

open String (utf8EncodeChar)

/-!
## Digits
-/

theorem hexDigit_inj {m n : Nat} (hm : m < 16) (hn : n < 16) (h : hexDigit m = hexDigit n) :
    m = n := by
  have htable : ∀ m n : Fin 16, hexDigit m = hexDigit n → m = n := by decide
  exact Fin.mk.inj_iff.mp (htable ⟨m, hm⟩ ⟨n, hn⟩ h)

theorem hexDigit_ne_newline {n : Nat} (hn : n < 16) : hexDigit n ≠ 0x0A := by
  have htable : ∀ n : Fin 16, hexDigit n ≠ 0x0A := by decide
  exact htable ⟨n, hn⟩

/-- The digits in front of some bytes, read back from the last one on. -/
theorem hexGo_inj (width : Nat) {m n : Nat} {r r' : List UInt8} (hm : m < 16 ^ width)
    (hn : n < 16 ^ width) (h : hex.go width m r = hex.go width n r') : m = n ∧ r = r' := by
  induction width generalizing m n r r' with
  | zero => exact ⟨by omega, h⟩
  | succ width ih =>
    rw [Nat.pow_succ] at hm hn
    obtain ⟨hhigh, hlow⟩ := ih (by omega) (by omega) h
    obtain ⟨hdigit, hrest⟩ := List.cons.inj hlow
    have hdigit := hexDigit_inj (by omega) (by omega) hdigit
    exact ⟨by omega, hrest⟩

theorem hexGo_append (width n : Nat) (acc r : List UInt8) :
    hex.go width n acc ++ r = hex.go width n (acc ++ r) := by
  induction width generalizing n acc with
  | zero => rfl
  | succ width ih => exact ih _ _

theorem mem_hexGo {width n : Nat} {acc : List UInt8} {b : UInt8} (h : b ∈ hex.go width n acc) :
    (∃ d, d < 16 ∧ b = hexDigit d) ∨ b ∈ acc := by
  induction width generalizing n acc with
  | zero => exact .inr h
  | succ width ih =>
    rcases ih h with hdigit | hacc
    · exact .inl hdigit
    · rcases List.mem_cons.mp hacc with rfl | hacc
      · exact .inl ⟨n % 16, by omega, rfl⟩
      · exact .inr hacc

/-!
## Signs
-/

/-- How a piece of a text is written inside quotes. -/
inductive Sign where
  | plain (c : Char)
  /-- One byte behind a backslash. -/
  | marked (mark : UInt8)
  /-- So many digits of a number behind a backslash and a letter. -/
  | digits (mark : UInt8) (width number : Nat)

namespace Sign

def bytes : Sign → List UInt8
  | plain c => utf8EncodeChar c
  | marked m => [0x5C, m]
  | digits m width n => 0x5C :: m :: hex.go width n []

/-- The letters that announce digits, with how many of them. -/
def announced : List (UInt8 × Nat) :=
  [(0x78, 2), (0x75, 4), (0x55, 8)]

/-- What a sign is held to so that it can be told from others. -/
def Proper : Sign → Prop
  | plain c => c ∉ ['"', '\\', '\n']
  | marked m => m ∉ [0x78, 0x75, 0x55, 0x0A]
  | digits m width n => (m, width) ∈ announced ∧ n < 16 ^ width

variable {x y : Sign} {r r' : List UInt8}

/-- A character as it is begins neither with a backslash nor with a quote. -/
theorem plain_head {c : Char} (hc : (plain c).Proper) {b : UInt8} (hb : b ∈ utf8EncodeChar c) :
    b ≠ 0x5C ∧ b ≠ 0x22 ∧ b ≠ 0x0A := by
  have hplain {d : Char} (hd : d ∈ ['"', '\\', '\n']) (h : b.toNat = d.toNat) (hlt : b < 0x80) :
      False := by
    have hcd : c = d := by
      apply Char.toNat_inj.mp
      rw [plain_of_mem_encoding hb hlt, h]
    exact hc (hcd ▸ hd)
  refine ⟨?_, ?_, ?_⟩
  all_goals rintro rfl
  · exact hplain (d := '\\') (by decide) (by decide) (by decide)
  · exact hplain (d := '"') (by decide) (by decide) (by decide)
  · exact hplain (d := '\n') (by decide) (by decide) (by decide)

theorem bytes_eq_cons (x : Sign) : ∃ b rest, x.bytes = b :: rest := by
  cases x with
  | plain c =>
    obtain ⟨b, rest, h⟩ := List.exists_cons_of_ne_nil (String.utf8EncodeChar_ne_nil (c := c))
    exact ⟨b, rest, h⟩
  | marked m => exact ⟨_, _, rfl⟩
  | digits m width n => exact ⟨_, _, rfl⟩

/-- No sign begins like a closing quote. -/
theorem bytes_append_ne (hx : x.Proper) : x.bytes ++ r ≠ 0x22 :: r' := by
  intro h
  cases x with
  | plain c =>
    obtain ⟨b, rest, hbytes⟩ := (plain c).bytes_eq_cons
    rw [hbytes] at h
    have hb : b ∈ utf8EncodeChar c := by
      rw [show utf8EncodeChar c = b :: rest from hbytes]
      exact List.mem_cons_self
    exact (plain_head hx hb).2.1 (List.cons.inj h).1
  | marked m => exact absurd (List.cons.inj h).1 (by decide)
  | digits m width n => exact absurd (List.cons.inj h).1 (by decide)

theorem newline_notMem_bytes (hx : x.Proper) : 0x0A ∉ x.bytes := by
  intro h
  cases x with
  | plain c => exact (plain_head hx h).2.2 rfl
  | marked m =>
    simp only [bytes, List.mem_cons, List.not_mem_nil, or_false] at h
    rcases h with h | rfl
    · exact absurd h (by decide)
    · exact hx (by decide)
  | digits m width n =>
    rcases List.mem_cons.mp h with h | h
    · exact absurd h (by decide)
    rcases List.mem_cons.mp h with rfl | h
    · obtain ⟨hmark, -⟩ := hx
      simp [announced] at hmark
    rcases mem_hexGo h with ⟨d, hd, heq⟩ | h
    · exact hexDigit_ne_newline hd heq.symm
    · cases h

theorem plain_append_ne {c : Char} (hc : (plain c).Proper) :
    utf8EncodeChar c ++ r ≠ 0x5C :: r' := by
  intro h
  obtain ⟨b, rest, hbytes⟩ := (plain c).bytes_eq_cons
  have hbytes : utf8EncodeChar c = b :: rest := hbytes
  have hb : b ∈ utf8EncodeChar c := by
    rw [hbytes]
    exact List.mem_cons_self
  rw [hbytes] at h
  exact (plain_head hc hb).1 (List.cons.inj h).1

/-- A letter that announces digits announces a fixed number of them. -/
theorem announced_unique {m : UInt8} {width width' : Nat} (h : (m, width) ∈ announced)
    (h' : (m, width') ∈ announced) : width = width' := by
  simp only [announced, List.mem_cons, Prod.mk.injEq, List.not_mem_nil, or_false] at h h'
  rcases h with ⟨rfl, rfl⟩ | ⟨rfl, rfl⟩ | ⟨rfl, rfl⟩
  all_goals
    rcases h' with ⟨h', rfl⟩ | ⟨h', rfl⟩ | ⟨h', rfl⟩
    all_goals first | rfl | exact absurd h' (by decide)

theorem announced_ne_marked {m : UInt8} {width n : Nat} (hx : (marked m).Proper)
    (hy : (digits m width n).Proper) : False := by
  obtain ⟨hmark, -⟩ := hy
  simp only [announced, List.mem_cons, Prod.mk.injEq, List.not_mem_nil, or_false] at hmark
  rcases hmark with ⟨rfl, -⟩ | ⟨rfl, -⟩ | ⟨rfl, -⟩
  all_goals exact hx (by decide)

/-- A sign is no proper beginning of another one. -/
theorem bytes_append_inj (hx : x.Proper) (hy : y.Proper) (h : x.bytes ++ r = y.bytes ++ r') :
    x = y ∧ r = r' := by
  cases x with
  | plain c =>
    cases y with
    | plain d =>
      obtain ⟨rfl, hr⟩ := encoding_append_inj h
      exact ⟨rfl, hr⟩
    | marked m => exact absurd h (plain_append_ne hx)
    | digits m width n => exact absurd h (plain_append_ne hx)
  | marked m =>
    cases y with
    | plain d => exact absurd h.symm (plain_append_ne hy)
    | marked m' =>
      obtain ⟨rfl, hr⟩ := List.cons.inj (List.cons.inj h).2
      exact ⟨rfl, hr⟩
    | digits m' width n =>
      obtain ⟨rfl, -⟩ := List.cons.inj (List.cons.inj h).2
      exact (announced_ne_marked hx hy).elim
  | digits m width n =>
    cases y with
    | plain d => exact absurd h.symm (plain_append_ne hy)
    | marked m' =>
      obtain ⟨rfl, -⟩ := List.cons.inj (List.cons.inj h).2
      exact (announced_ne_marked hy hx).elim
    | digits m' width' n' =>
      obtain ⟨rfl, hr⟩ := List.cons.inj (List.cons.inj h).2
      obtain rfl := announced_unique hx.1 hy.1
      have hr : hex.go width n [] ++ r = hex.go width n' [] ++ r' := hr
      rw [hexGo_append, hexGo_append] at hr
      obtain ⟨rfl, hrest⟩ := hexGo_inj width hx.2 hy.2 hr
      exact ⟨rfl, hrest⟩

end Sign

/-!
## What a sign stands for
-/

/-- Whether a sign stands for a character, and the code point or byte it stands for. -/
def Sign.meaning : Sign → Bool × Nat
  | plain c => (true, c.toNat)
  | marked m =>
    if m = 0x22 ∨ m = 0x5C then (true, m.toNat)
    else (true, 7 + [0x61, 0x62, 0x74, 0x6E, 0x76, 0x66, 0x72].idxOf m)
  | digits m _ n => if m = 0x78 ∧ 0x80 ≤ n then (false, n) else (true, n)

/-- The bytes are a sign that stands for `what`. -/
structure Sign.Writes (x : Sign) (bytes : List UInt8) (what : Bool × Nat) : Prop where
  proper : x.Proper
  bytes : bytes = x.bytes
  meaning : x.meaning = what

/-- A byte behind a backslash. -/
theorem writes_marked {s : String} {m : UInt8} {n : Nat}
    (hmark : (ofString s).toList = [m]) (hproper : m ∉ [0x78, 0x75, 0x55, 0x0A])
    (hmeaning : (Sign.marked m).meaning = (true, n)) :
    (Sign.marked m).Writes (ofString "\\" ++ ofString s).toList (true, n) where
  proper := hproper
  bytes := by
    rw [toList_append, hmark]
    rfl
  meaning := hmeaning

theorem toList_hex (width n : Nat) : (hex width n).toList = hex.go width n [] :=
  toList_ofList _

/-- Digits behind a backslash and a letter. -/
theorem writes_digits {mark : String} {m : UInt8} {width n : Nat}
    (hmark : (ofString mark).toList = [0x5C, m]) (hm : (m, width) ∈ Sign.announced)
    (hn : n < 16 ^ width) {what : Bool × Nat} (hmeaning : (Sign.digits m width n).meaning = what) :
    (Sign.digits m width n).Writes (ofString mark ++ hex width n).toList what where
  proper := ⟨hm, hn⟩
  bytes := by
    rw [toList_append, hmark, toList_hex]
    rfl
  meaning := hmeaning

/-- The control characters with letters of their own. -/
theorem writes_letter {n : Nat} {letter : String} (h : controlLetter? n = some letter) :
    ∃ x : Sign, x.Writes (ofString "\\" ++ ofString letter).toList (true, n) := by
  unfold controlLetter? at h
  split at h
  case h_8 => cases h
  all_goals
    obtain rfl := Option.some.inj h
    exact ⟨_, writes_marked rfl (by decide) (by decide)⟩

/-- Inside quotes a character is written as a sign that stands for it. -/
theorem escapeChar_writes (c : Char) :
    ∃ x : Sign, x.Writes (escapeChar c).toList (true, c.toNat) := by
  have hbound : c.toNat < 0x110000 := by
    rcases c.valid with h | h
    · exact Nat.lt_trans h (by decide)
    · exact h.2
  unfold escapeChar
  dsimp only
  split
  next hc =>
    rw [Bool.or_eq_true, beq_iff_eq, beq_iff_eq] at hc
    rcases hc with rfl | rfl
    · exact ⟨_, writes_marked (s := "\"") rfl (by decide) (by decide)⟩
    · exact ⟨_, writes_marked (s := "\\") rfl (by decide) (by decide)⟩
  next hc =>
    split
    next hprintable =>
      refine ⟨.plain c, ?_, toList_ofChar c, rfl⟩
      intro hmem
      simp only [List.mem_cons, List.not_mem_nil, or_false] at hmem
      rcases hmem with rfl | rfl | rfl
      · exact hc rfl
      · exact hc rfl
      · exact absurd hprintable (by decide)
    next =>
      split
      next letter hletter => exact writes_letter hletter
      next =>
        split
        next hsmall =>
          rw [Bool.or_eq_true, decide_eq_true_eq, beq_iff_eq] at hsmall
          exact ⟨_, writes_digits (m := 0x78) rfl (by decide) (by omega)
            (if_neg fun h => absurd h.2 (by omega))⟩
        next =>
          have hcode {m : UInt8} {width : Nat} (hm : m ≠ 0x78) :
              (Sign.digits m width c.toNat).meaning = (true, c.toNat) :=
            if_neg fun h => hm h.1
          split
          next hwide =>
            exact ⟨_, writes_digits (m := 0x75) rfl (by decide) hwide (hcode (by decide))⟩
          next =>
            exact ⟨_, writes_digits (m := 0x55) rfl (by decide) (by omega) (hcode (by decide))⟩

/-- What a piece says: its character, or its byte `b` if that is none. -/
def Piece.content (b : UInt8) (p : Piece) : Bool × Nat :=
  if p.valid then (true, p.char.toNat) else (false, b.toNat)

/-- Inside quotes a piece of a text is written as a sign that stands for it. -/
theorem escapePiece_writes {t : Text} {i : Nat} (hi : i < t.size) :
    ∃ x : Sign, x.Writes (escapePiece (t.byteAt i) (t.pieceAt i)).toList
      (Piece.content (t.byteAt i) (t.pieceAt i)) := by
  unfold escapePiece Piece.content
  cases hvalid : (t.pieceAt i).valid with
  | true => exact escapeChar_writes (t.pieceAt i).char
  | false =>
    have hbyte := ((drop_pieceAt hi).2 hvalid).2
    exact ⟨_, writes_digits (m := 0x78) rfl (by decide) (t.byteAt i).toNat_lt (if_pos ⟨rfl, hbyte⟩)⟩

/-- Pieces that say the same have the same bytes. -/
theorem drop_of_content_eq {s t : Text} {i j : Nat} (hi : i < s.size) (hj : j < t.size)
    (h : Piece.content (s.byteAt i) (s.pieceAt i) = Piece.content (t.byteAt j) (t.pieceAt j)) :
    ∃ bytes, s.toList.drop i = bytes ++ s.toList.drop (i + (s.pieceAt i).width) ∧
      t.toList.drop j = bytes ++ t.toList.drop (j + (t.pieceAt j).width) := by
  obtain ⟨hgood, hbad⟩ := drop_pieceAt hi
  obtain ⟨hgood', hbad'⟩ := drop_pieceAt hj
  unfold Piece.content at h
  cases hs : (s.pieceAt i).valid with
  | true =>
    cases ht : (t.pieceAt j).valid with
    | true =>
      rw [hs, ht] at h
      have hchar : (s.pieceAt i).char = (t.pieceAt j).char :=
        Char.toNat_inj.mp (Prod.mk.inj h).2
      exact ⟨_, hgood hs, hchar ▸ hgood' ht⟩
    | false =>
      rw [hs, ht] at h
      exact absurd (Prod.mk.inj h).1 (by decide)
  | false =>
    cases ht : (t.pieceAt j).valid with
    | true =>
      rw [hs, ht] at h
      exact absurd (Prod.mk.inj h).1 (by decide)
    | false =>
      rw [hs, ht] at h
      have hbyte : s.byteAt i = t.byteAt j := UInt8.toNat_inj.mp (Prod.mk.inj h).2
      exact ⟨[s.byteAt i], (hbad hs).1, hbyte ▸ (hbad' ht).1⟩

/-!
## Whole texts
-/

/-- What stands inside the quotes for the bytes from position `i` on. -/
def escapedFrom (t : Text) (i : Nat) : List UInt8 :=
  if i < t.size then
    (escapePiece (t.byteAt i) (t.pieceAt i)).toList ++ escapedFrom t (i + (t.pieceAt i).extra + 1)
  else []
termination_by t.size - i

theorem toList_foldPieces_escape (t : Text) (acc : Text) (i : Nat) :
    (t.foldPieces (fun acc i p => acc ++ escapePiece (t.byteAt i) p) acc i).toList =
      acc.toList ++ t.escapedFrom i := by
  fun_induction foldPieces t (fun acc i p => acc ++ escapePiece (t.byteAt i) p) acc i with
  | case1 acc i hi p ih =>
    rw [ih, toList_append, List.append_assoc, escapedFrom.eq_1 t i, if_pos hi]
  | case2 acc i hi => rw [escapedFrom, if_neg hi, List.append_nil]

theorem toList_quoted (t : Text) : t.quoted.toList = 0x22 :: (t.escapedFrom 0 ++ [0x22]) := by
  unfold quoted
  rw [toList_append, toList_foldPieces_escape]
  rfl

theorem newline_notMem_escapedFrom (t : Text) (i : Nat) : 0x0A ∉ t.escapedFrom i := by
  fun_induction escapedFrom t i with
  | case1 i hi ih =>
    obtain ⟨x, hx⟩ := escapePiece_writes hi
    intro h
    rcases List.mem_append.mp h with h | h
    · exact Sign.newline_notMem_bytes hx.proper (hx.bytes ▸ h)
    · exact ih h
  | case2 => exact List.not_mem_nil

/-- A quoted text stands on one line. -/
theorem newline_notMem_quoted (t : Text) : 0x0A ∉ t.quoted.toList := by
  rw [toList_quoted]
  intro h
  rcases List.mem_cons.mp h with h | h
  · exact absurd h (by decide)
  rcases List.mem_append.mp h with h | h
  · exact newline_notMem_escapedFrom t 0 h
  · exact absurd (List.mem_singleton.mp h) (by decide)

/-- The signs up to the closing quote tell the bytes. By induction on the signs of `s`. -/
theorem escapedFrom_append_inj {s t : Text} {i j : Nat} {r r' : List UInt8}
    (h : s.escapedFrom i ++ 0x22 :: r = t.escapedFrom j ++ 0x22 :: r') :
    s.toList.drop i = t.toList.drop j ∧ r = r' := by
  have hend {u : Text} {k : Nat} (hk : ¬ k < u.size) : u.toList.drop k = [] :=
    List.drop_eq_nil_of_le (by rw [length_toList]; exact Nat.le_of_not_lt hk)
  fun_induction escapedFrom s i generalizing j with
  | case1 i hi ih =>
    obtain ⟨x, hx⟩ := escapePiece_writes hi
    rw [List.append_assoc, hx.bytes, escapedFrom.eq_1 t j] at h
    split at h
    next hj =>
      obtain ⟨y, hy⟩ := escapePiece_writes hj
      rw [hy.bytes, List.append_assoc] at h
      obtain ⟨hxy, hrest⟩ := Sign.bytes_append_inj hx.proper hy.proper h
      obtain ⟨hdrop, hr⟩ := ih hrest
      have hcontent := hx.meaning.symm.trans ((congrArg Sign.meaning hxy).trans hy.meaning)
      obtain ⟨bytes, hs, ht⟩ := drop_of_content_eq hi hj hcontent
      refine ⟨?_, hr⟩
      rw [hs, ht]
      exact congrArg (bytes ++ ·) hdrop
    next hj => exact absurd h (Sign.bytes_append_ne hx.proper)
  | case2 i hi =>
    rw [escapedFrom.eq_1 t j] at h
    split at h
    next hj =>
      obtain ⟨y, hy⟩ := escapePiece_writes hj
      rw [List.append_assoc, hy.bytes] at h
      exact absurd h.symm (Sign.bytes_append_ne hy.proper)
    next hj =>
      rw [hend hi, hend hj]
      exact ⟨rfl, (List.cons.inj h).2⟩

/-- A quoted text in front of anything tells which text it is and where it ends. -/
theorem quoted_append_inj {s t : Text} {r r' : List UInt8}
    (h : s.quoted.toList ++ r = t.quoted.toList ++ r') : s = t ∧ r = r' := by
  rw [toList_quoted, toList_quoted, List.cons_append, List.cons_append, List.append_assoc,
    List.append_assoc] at h
  obtain ⟨hbytes, hr⟩ := escapedFrom_append_inj (List.cons.inj h).2
  exact ⟨toList_inj hbytes, hr⟩

end Text
end ScriptEngine
