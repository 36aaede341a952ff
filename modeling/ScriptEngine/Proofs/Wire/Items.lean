import Mathlib.Algebra.Ring.Int.Defs
import Mathlib.Algebra.Ring.Nat
import ScriptEngine.Cbor.Reading
import ScriptEngine.Proofs.Text.Bytes

/-!
# Items read back

The canonical bytes of an item are read back as that item, whatever bytes follow them, as long as no
container has more elements than a reader accepts. Where one has, the bytes are refused. This is said
of the items that reports are made of: integers of 64 bits, strings in one piece, and containers.
-/

namespace ScriptEngine

namespace Cbor

/-!
# Numbers and heads
-/

theorem bigEndian_succ (width n : Nat) :
    bigEndian (width + 1) n = UInt8.ofNat (n >>> (8 * width)) :: bigEndian width n := by
  unfold bigEndian
  rw [List.range_succ_eq_map, List.map_cons, List.map_map]
  congr 1
  apply List.map_congr_left
  intro k _
  show UInt8.ofNat (n >>> (8 * (width + 1 - 1 - (k + 1)))) = UInt8.ofNat (n >>> (8 * (width - 1 - k)))
  congr 3
  omega

@[simp] theorem length_bigEndian (width n : Nat) : (bigEndian width n).length = width := by
  simp [bigEndian]

/-- Reading on behind some bytes puts the number behind their number. -/
theorem foldl_bigEndian (width n acc : Nat) :
    (bigEndian width n).foldl (fun n b => n * 256 + b.toNat) acc =
      acc * 256 ^ width + n % 256 ^ width := by
  induction width generalizing acc with
  | zero => simp [bigEndian, Nat.mod_one]
  | succ width ih =>
    have hbyte : (UInt8.ofNat (n >>> (8 * width))).toNat = n / 256 ^ width % 256 := by
      rw [UInt8.toNat_ofNat', Nat.shiftRight_eq_div_pow, Nat.pow_mul]
    rw [bigEndian_succ, List.foldl_cons, ih, hbyte, Nat.mod_pow_succ, Nat.pow_succ, Nat.add_mul,
      Nat.mul_assoc, Nat.mul_comm 256, Nat.mul_comm (256 ^ width) (_ % 256)]
    omega

theorem number_bigEndian {width n : Nat} (h : n < 256 ^ width) : number (bigEndian width n) = n := by
  unfold number
  rw [foldl_bigEndian, Nat.zero_mul, Nat.zero_add, Nat.mod_eq_of_lt h]

theorem cutGo_append {α : Type} (l rest acc : List α) :
    cut?.go l.length (l ++ rest) acc = some (acc.reverse ++ l, rest) := by
  induction l generalizing acc with
  | nil =>
    rw [List.append_nil]
    rfl
  | cons a l ih =>
    show cut?.go l.length (l ++ rest) (a :: acc) = _
    rw [ih, List.reverse_cons, List.append_assoc]
    rfl

theorem cut?_append {α : Type} {n : Nat} {l : List α} (h : l.length = n) (rest : List α) :
    cut? n (l ++ rest) = some (l, rest) := by
  subst h
  exact cutGo_append l rest []

theorem length_head_pos (major n : Nat) : 0 < (head major n).length := by
  unfold head
  dsimp only
  split
  · exact Nat.zero_lt_one
  · split
    · exact Nat.succ_pos _
    · split
      · exact Nat.succ_pos _
      · split <;> exact Nat.succ_pos _

/-- The first byte of an item holds its major type and what is said of the argument. -/
theorem toNat_first {major info : Nat} (hmajor : major < 8) (hinfo : info < 32) :
    (UInt8.ofNat (major * 32 + info)).toNat / 32 = major ∧
      (UInt8.ofNat (major * 32 + info)).toNat % 32 = info := by
  rw [UInt8.toNat_ofNat']
  omega

/-- How a head says that its number follows in some bytes. -/
def wideHeads : List (Nat × Nat) :=
  [(24, 1), (25, 2), (26, 4), (27, 8)]

theorem readHead_wide {major info width n : Nat} (hmajor : major < 8)
    (hwide : (info, width) ∈ wideHeads) (hn : n < 256 ^ width) (rest : List UInt8) :
    readHead (UInt8.ofNat (major * 32 + info) :: (bigEndian width n ++ rest)) =
      some (⟨major, info, .value n⟩, rest) := by
  have hcut : cut? width (bigEndian width n ++ rest) = some (bigEndian width n, rest) :=
    cut?_append (length_bigEndian width n) rest
  have hnumber := number_bigEndian hn
  have hinfo : info < 32 := by
    simp [wideHeads] at hwide
    omega
  obtain ⟨hfirst, hlow⟩ := toNat_first hmajor hinfo
  unfold readHead
  dsimp only
  rw [hfirst, hlow]
  simp only [wideHeads, List.mem_cons, List.not_mem_nil, or_false, Prod.mk.injEq] at hwide
  rcases hwide with ⟨rfl, rfl⟩ | ⟨rfl, rfl⟩ | ⟨rfl, rfl⟩ | ⟨rfl, rfl⟩ <;>
    simp only [hcut, hnumber] <;> rfl

/-- The first bytes of an item are read back whatever their number. -/
theorem readHead_head (major : Nat) {n : Nat} (hmajor : major < 8) (hn : n < 2 ^ 64) (rest : List UInt8) :
    ∃ info, readHead (head major n ++ rest) = some (⟨major, info, .value n⟩, rest) := by
  unfold head
  dsimp only
  split
  · rename_i hsmall
    obtain ⟨hfirst, hlow⟩ := toNat_first hmajor (Nat.lt_trans hsmall (by decide))
    exists n
    unfold readHead
    simp only [List.cons_append, List.nil_append, hfirst, hlow, if_pos hsmall]
  · split
    · rename_i hone
      exact ⟨24, readHead_wide hmajor (by decide) hone rest⟩
    · split
      · rename_i htwo
        exact ⟨25, readHead_wide hmajor (by decide) htwo rest⟩
      · split
        · rename_i hfour
          exact ⟨26, readHead_wide hmajor (by decide) hfour rest⟩
        · exact ⟨27, readHead_wide hmajor (by decide) hn rest⟩

theorem readString_toList (t : Text) (rest : List UInt8) :
    readString t.size (t.toList ++ rest) = some (t, rest) := by
  unfold readString
  rw [cut?_append t.length_toList rest]
  exact congrArg (fun t => some (t, rest)) t.ofList_toList

theorem string_singleton (major : Nat) (t : Text) :
    string major [t] = head major t.size ++ t.toList := by
  unfold string
  rw [Text.concat_singleton]

/-!
# Items
-/

/-- Every number of the item and every length in it fits 64 bits, its strings are in one piece, and
its containers are nested at most so deep. -/
inductive Item.Plain : Nat → Item → Prop where
  | unsigned {room n : Nat} (h : n < 2 ^ 64) : Plain room (.unsigned n)
  | negative {room n : Nat} (h : n < 2 ^ 64) : Plain room (.negative n)
  | bytes {room : Nat} {t : Text} (h : t.size < 2 ^ 64) : Plain room (.bytes [t])
  | text {room : Nat} {t : Text} (h : t.size < 2 ^ 64) : Plain room (.text [t])
  | array {room : Nat} {items : List Item} (h : items.length < 2 ^ 64)
      (hitems : ∀ i ∈ items, Plain room i) : Plain (room + 1) (.array items)
  | map {room : Nat} {entries : List (Item × Item)} (h : entries.length < 2 ^ 64)
      (hkeys : ∀ e ∈ entries, Plain room e.1) (hvalues : ∀ e ∈ entries, Plain room e.2) :
      Plain (room + 1) (.map entries)

mutual

/-- No container in the item has more elements than a reader accepts. -/
def Item.admitted : Item → Bool
  | .array items => items.length ≤ maxElements && allAdmitted items
  | .map entries => entries.length ≤ maxElements && allEntriesAdmitted entries
  | _ => true

/-- So for all items of a list. -/
def Item.allAdmitted : List Item → Bool
  | [] => true
  | i :: rest => i.admitted && allAdmitted rest

/-- So for all keys and values of a list. -/
def Item.allEntriesAdmitted : List (Item × Item) → Bool
  | [] => true
  | (k, v) :: rest => k.admitted && (v.admitted && allEntriesAdmitted rest)

end

/-- Keys and values one after the other. -/
def flatten : List (Item × Item) → List Item
  | [] => []
  | (k, v) :: rest => k :: v :: flatten rest

theorem length_flatten (entries : List (Item × Item)) :
    (flatten entries).length = 2 * entries.length := by
  induction entries with
  | nil => rfl
  | cons e rest ih =>
    show (flatten rest).length + 1 + 1 = 2 * (rest.length + 1)
    rw [ih]
    omega

theorem encodeAll_flatten (entries : List (Item × Item)) :
    encodeAll (flatten entries) = encodeEntries entries := by
  induction entries with
  | nil => rw [flatten, encodeAll, encodeEntries]
  | cons e rest ih =>
    obtain ⟨k, v⟩ := e
    rw [flatten, encodeAll, encodeAll, encodeEntries, ih]

theorem allAdmitted_flatten (entries : List (Item × Item)) :
    Item.allAdmitted (flatten entries) = Item.allEntriesAdmitted entries := by
  induction entries with
  | nil => rw [flatten, Item.allAdmitted, Item.allEntriesAdmitted]
  | cons e rest ih =>
    obtain ⟨k, v⟩ := e
    rw [flatten, Item.allAdmitted, Item.allAdmitted, Item.allEntriesAdmitted, ih]

theorem mem_flatten {entries : List (Item × Item)} {i : Item} (h : i ∈ flatten entries) :
    ∃ e ∈ entries, i = e.1 ∨ i = e.2 := by
  induction entries with
  | nil => cases h
  | cons e rest ih =>
    rcases List.mem_cons.mp h with rfl | h
    · exact ⟨e, List.mem_cons_self, Or.inl rfl⟩
    · rcases List.mem_cons.mp h with rfl | h
      · exact ⟨e, List.mem_cons_self, Or.inr rfl⟩
      · obtain ⟨e', he', hi⟩ := ih h
        exact ⟨e', List.mem_cons_of_mem _ he', hi⟩

theorem pairUp_flatten (entries acc : List (Item × Item)) :
    pairUp (flatten entries) acc = some (acc.reverse ++ entries) := by
  induction entries generalizing acc with
  | nil =>
    rw [List.append_nil]
    rfl
  | cons e rest ih =>
    show pairUp (flatten rest) (e :: acc) = _
    rw [ih, List.reverse_cons, List.append_assoc]
    rfl

theorem length_encode_pos (i : Item) : 0 < (encode i).length := by
  cases i <;> rw [encode]
  case unsigned | negative | simple => exact length_head_pos _ _
  case bytes | text =>
    rw [string, List.length_append]
    exact Nat.add_pos_left (length_head_pos _ _) _
  case array | map | tag =>
    rw [List.length_append]
    exact Nat.add_pos_left (length_head_pos _ _) _
  case float => exact Nat.succ_pos _

/-- The reader gives the item back if it is admitted, whatever follows its bytes. -/
def Item.ReadBack (room : Nat) (i : Item) : Prop :=
  ∀ fuel depth tagged rest, 3 * (encode i).length ≤ fuel → depth + room ≤ maxDepth →
    readItem fuel depth tagged (encode i ++ rest) = if i.admitted then some (i, rest) else none

/-- Items that are read back one by one are read back in a row. -/
theorem readMany_encodeAll {room depth : Nat} {items : List Item}
    (hitems : ∀ i ∈ items, i.ReadBack room) (hdepth : depth + room ≤ maxDepth) {fuel : Nat}
    (hfuel : 3 * (encodeAll items).length < fuel) (acc : List Item) (rest : List UInt8) :
    readMany fuel depth items.length acc (encodeAll items ++ rest) =
      if Item.allAdmitted items then some (acc.reverse ++ items, rest) else none := by
  induction items generalizing fuel acc with
  | nil =>
    cases fuel with
    | zero => omega
    | succ fuel =>
      rw [encodeAll, Item.allAdmitted, List.append_nil, readMany]
      rfl
  | cons i items ih =>
    cases fuel with
    | zero => omega
    | succ fuel =>
      rw [encodeAll, List.length_append] at hfuel
      have hi := hitems i List.mem_cons_self fuel depth false (encodeAll items ++ rest) (by omega) hdepth
      rw [encodeAll, Item.allAdmitted, List.append_assoc, readMany, hi]
      have hpos := length_encode_pos i
      cases i.admitted with
      | false => rfl
      | true =>
        have hfuel' : 3 * (encodeAll items).length < fuel := by omega
        have hrest := ih (fun j hj => hitems j (List.mem_cons_of_mem _ hj)) hfuel' (i :: acc)
        rw [List.reverse_cons, List.append_assoc] at hrest
        exact hrest

/-- The contents of a container are read back if there are not too many of them. -/
theorem readContents_encodeAll (each : Nat) {room depth n : Nat} {items : List Item}
    (hitems : ∀ i ∈ items, i.ReadBack room) (hdepth : depth + room ≤ maxDepth) {fuel : Nat}
    (hn : items.length = each * n) (hfuel : 3 * (encodeAll items).length + 1 < fuel)
    (rest : List UInt8) :
    readContents fuel depth maxElements each (.value n) (encodeAll items ++ rest) =
      if n ≤ maxElements && Item.allAdmitted items then some (items, rest) else none := by
  cases fuel with
  | zero => omega
  | succ fuel =>
    rw [readContents]
    by_cases hmany : n ≤ maxElements
    · rw [if_neg (Nat.not_lt.mpr hmany), ← hn, readMany_encodeAll hitems hdepth (by omega)]
      simp [hmany]
    · rw [if_pos (Nat.lt_of_not_le hmany)]
      simp [hmany]

theorem Item.Plain.readBack {room : Nat} {i : Item} (h : i.Plain room) : i.ReadBack room := by
  induction h with
  | @unsigned room n hn =>
    intro fuel depth tagged rest hfuel _
    obtain ⟨info, hhead⟩ := readHead_head 0 (by decide) hn rest
    have hpos := length_encode_pos (.unsigned n)
    cases fuel with
    | zero => omega
    | succ fuel => simp [encode, readItem, hhead, Item.admitted]
  | @negative room n hn =>
    intro fuel depth tagged rest hfuel _
    obtain ⟨info, hhead⟩ := readHead_head 1 (by decide) hn rest
    have hpos := length_encode_pos (.negative n)
    cases fuel with
    | zero => omega
    | succ fuel => simp [encode, readItem, hhead, Item.admitted]
  | @bytes room t ht =>
    intro fuel depth tagged rest hfuel _
    obtain ⟨info, hhead⟩ := readHead_head 2 (by decide) ht (t.toList ++ rest)
    have hpos := length_encode_pos (.bytes [t])
    cases fuel with
    | zero => omega
    | succ fuel =>
      simp [encode, string_singleton, readItem, hhead, readString_toList, Item.admitted]
  | @text room t ht =>
    intro fuel depth tagged rest hfuel _
    obtain ⟨info, hhead⟩ := readHead_head 3 (by decide) ht (t.toList ++ rest)
    have hpos := length_encode_pos (.text [t])
    cases fuel with
    | zero => omega
    | succ fuel =>
      simp [encode, string_singleton, readItem, hhead, readString_toList, Item.admitted]
  | @array room items hn _ ih =>
    intro fuel depth tagged rest hfuel hdepth
    obtain ⟨info, hhead⟩ := readHead_head 4 (by decide) hn (encodeAll items ++ rest)
    have hpos := length_head_pos 4 items.length
    rw [encode, List.length_append] at hfuel
    cases fuel with
    | zero => omega
    | succ fuel =>
      have hcontents := readContents_encodeAll 1 ih
        (show depth + 1 + room ≤ maxDepth by omega) (Nat.one_mul _).symm
        (show 3 * (encodeAll items).length + 1 < fuel by omega) rest
      have hroom : ¬ maxDepth ≤ depth := by omega
      rw [encode, List.append_assoc, readItem, hhead, Item.admitted]
      simp only [hcontents, if_neg hroom]
      cases decide (items.length ≤ maxElements) && Item.allAdmitted items <;> rfl
  | @map room entries hn _ _ hkeys hvalues =>
    intro fuel depth tagged rest hfuel hdepth
    obtain ⟨info, hhead⟩ := readHead_head 5 (by decide) hn (encodeEntries entries ++ rest)
    have hpos := length_head_pos 5 entries.length
    have hitems : ∀ i ∈ flatten entries, i.ReadBack room := by
      intro i hi
      obtain ⟨e, he, rfl | rfl⟩ := mem_flatten hi
      · exact hkeys e he
      · exact hvalues e he
    rw [encode, List.length_append] at hfuel
    cases fuel with
    | zero => omega
    | succ fuel =>
      have hcontents := readContents_encodeAll 2 hitems
        (show depth + 1 + room ≤ maxDepth by omega) (length_flatten entries)
        (show 3 * (encodeAll (flatten entries)).length + 1 < fuel by
          rw [encodeAll_flatten]
          omega) rest
      have hroom : ¬ maxDepth ≤ depth := by omega
      rw [encodeAll_flatten, allAdmitted_flatten] at hcontents
      rw [encode, List.append_assoc, readItem, hhead, Item.admitted]
      simp only [hcontents, if_neg hroom]
      cases decide (entries.length ≤ maxElements) && Item.allEntriesAdmitted entries with
      | false => rfl
      | true => simp only [if_true, pairUp_flatten, List.reverse_nil, List.nil_append, Option.map_some]

/-- The bytes of an item are read back as that item exactly if no container has too many elements. -/
theorem decode_encode {i : Item} (h : i.Plain maxDepth) :
    decode (encode i) = if i.admitted then some i else none := by
  have hread := h.readBack (3 * (encode i).length + 3) 0 false [] (by omega) (Nat.le_of_eq (Nat.zero_add _))
  rw [List.append_nil] at hread
  unfold decode
  rw [hread]
  cases i.admitted <;> rfl

end Cbor
end ScriptEngine
