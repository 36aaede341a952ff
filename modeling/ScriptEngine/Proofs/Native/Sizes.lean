import ScriptEngine.Proofs.Execution.Equality
import ScriptEngine.Proofs.Native.Endings
import ScriptEngine.Proofs.Number.Integers
import ScriptEngine.Proofs.Number.Values
import ScriptEngine.Proofs.Store.Copies

/-!
# Natives that build as much as they are told to

A range and a repeated string are as long as a program says, up to a limit. Lengths beyond the limit
and numbers that are no lengths are refused, with one exception: the empty string is never too long,
so that it may be repeated more often than a machine word can count, which breaks the engine.
-/

namespace ScriptEngine

/-!
# Repeated texts
-/

namespace Text

theorem size_append (a b : Text) : (a ++ b).size = a.size + b.size :=
  ByteArray.size_append

theorem replicate_succ (k : Nat) (t : Text) : replicate (k + 1) t = replicate k t ++ t :=
  Nat.fold_succ ..

theorem size_replicate (k : Nat) (t : Text) : (replicate k t).size = k * t.size := by
  induction k with
  | zero =>
    rw [Nat.zero_mul]
    rfl
  | succ k ih => rw [replicate_succ, size_append, ih, Nat.succ_mul]

theorem replicate_empty (k : Nat) : replicate k empty = empty := by
  induction k with
  | zero => rfl
  | succ k ih =>
    rw [replicate_succ, ih]
    rfl

theorem size_eq_zero {t : Text} (h : t.size = 0) : t = empty := by
  obtain ⟨bytes⟩ := t
  exact congrArg mk (ByteArray.size_eq_zero_iff.mp h)

end Text

namespace Native

/-- The natives that build a sequence of a length that a program gives. -/
inductive Builder where
  | range
  | times
  deriving DecidableEq

namespace Builder

def key : Builder → Text
  | range => "range"
  | times => Key.join "times" "String"

/-- The arguments of a range are its end, or both its ends. -/
inductive Ends : List Value → Float → Float → Prop
  | upTo (hi : Float) : Ends [.number hi] 0 hi
  | between (lo hi : Float) : Ends [.number lo, .number hi] lo hi

/-- What a range gives, and the store that it leaves: the numbers `lo`, `lo + 1` and so on, as many as
there are steps of one below `hi`. -/
inductive Ranges (s : Store) : List Value → Except Failure Value → Store → Prop
  | items {args : List Value} {lo hi : Float} {n : Nat} (hargs : Ends args lo hi)
    (hspan : Number.span? (hi - lo) = some n) (hn : n ≤ Effect.sequenceLimit) :
    Ranges s args (.ok (.list s.lists.size))
      (s.newList (Array.ofFn fun i : Fin n => .number (lo + Number.ofNat i))).2
  | tooLong {args : List Value} {lo hi : Float} (hargs : Ends args lo hi)
    (h : ∀ n, Number.span? (hi - lo) = some n → Effect.sequenceLimit < n) :
    Ranges s args (.error .invalidOperand) s
  | mismatch {args : List Value} (hlength : args.length = 1 ∨ args.length = 2)
    (h : ∀ lo hi, ¬ Ends args lo hi) : Ranges s args (.error .typeMismatch) s
  | arity {args : List Value} (hlength : args.length ≠ 1 ∧ args.length ≠ 2) :
    Ranges s args (.error .arity) s

/-- More copies of a text than the limit has room for. -/
def Excess (t : Text) (x : Float) : Prop :=
  0 < t.size ∧ ∀ q, Number.value? x = some q → ((Effect.sequenceLimit / t.size : Nat) : ℚ) < q

/-- What a repeated text gives; the store is left as it is. -/
inductive Repeats (s : Store) : List Value → Except Failure Value → Store → Prop
  | copies {t : Text} {x : Float} {k : Nat} (hnonneg : 0 ≤ x) (hk : Number.whole? x = some k)
    (hsize : (Text.replicate k t).size ≤ Effect.sequenceLimit) :
    Repeats s [.text t, .number x] (.ok (.text (Text.replicate k t))) s
  | refused {t : Text} {x : Float} (h : ¬ 0 ≤ x ∨ Excess t x) :
    Repeats s [.text t, .number x] (.error .invalidOperand) s
  | mismatch {args : List Value} (hlength : args.length = 2)
    (h : ∀ t x, args ≠ [.text t, .number x]) : Repeats s args (.error .typeMismatch) s
  | arity {args : List Value} (hlength : args.length ≠ 2) : Repeats s args (.error .arity) s

/-- What the native gives for its arguments, the receiver first, and the store that it leaves. -/
def Gives : Builder → Store → List Value → Except Failure Value → Store → Prop
  | range => Ranges
  | times => Repeats

/-- The empty text, to be repeated `2^63` times or more, or without end. -/
def Breaks (k : Builder) (args : List Value) : Prop :=
  k = times ∧ ∃ x, args = [.text Text.empty, .number x] ∧ 0 ≤ x ∧ Number.whole? x = none

end Builder

/-!
# Ranges
-/

section
variable {w : World} {lo hi : Float} {n : Nat}

theorem numberRange_items (hspan : Number.span? (hi - lo) = some n)
    (hn : n ≤ Effect.sequenceLimit) :
    numberRange lo hi w = .ok (.list w.store.lists.size)
      { w with store :=
          (w.store.newList (Array.ofFn fun i : Fin n => .number (lo + Number.ofNat i))).2 } := by
  have hlimit : Effect.sequenceLimit = 2 ^ 24 := rfl
  have hfits : Number.ceil (hi - lo) ≤ Number.ofNat Effect.sequenceLimit :=
    (Number.ceil_le_iff (by decide)).mpr ⟨n, hspan, hn⟩
  unfold numberRange
  dsimp only
  rw [if_pos hfits, Number.steps_of_span hspan (by omega)]
  rfl

theorem numberRange_tooLong
    (h : ∀ n, Number.span? (hi - lo) = some n → Effect.sequenceLimit < n) :
    ∃ message, numberRange lo hi w = .error (.fault (.raised .invalidOperand message)) w := by
  have hlong : ¬ Number.ceil (hi - lo) ≤ Number.ofNat Effect.sequenceLimit := by
    rw [Number.ceil_le_iff (by decide)]
    rintro ⟨k, hk, hle⟩
    exact Nat.not_le_of_lt (h k hk) hle
  unfold numberRange
  dsimp only
  rw [if_neg hlong]
  exact ⟨_, rfl⟩

end

/-!
# Repeated strings
-/

section
variable {w : World} {t : Text} {x : Float} {k : Nat}

theorem limit_lt (n : Nat) : Effect.sequenceLimit / n < 2 ^ 53 :=
  Nat.lt_of_le_of_lt (Nat.div_le_self _ _) (by decide)

theorem excess_iff (h : 0 ≤ x) :
    (0 < t.size && Number.ofNat (Effect.sequenceLimit / t.size) < x) = true ↔ Builder.Excess t x := by
  rw [Bool.and_eq_true, decide_eq_true_eq, decide_eq_true_eq,
    Number.ofNat_lt_iff (limit_lt t.size) h]
  exact Iff.rfl

/-- Copies that are not too many fit the limit. -/
theorem copies_fit (h : 0 ≤ x) (hexcess : ¬ Builder.Excess t x) (hk : Number.whole? x = some k) :
    (Text.replicate k t).size ≤ Effect.sequenceLimit := by
  rw [Text.size_replicate]
  rcases Nat.eq_zero_or_pos t.size with hzero | hpos
  · rw [hzero]
    exact Nat.zero_le _
  · have hle : ¬ Number.ofNat (Effect.sequenceLimit / t.size) < x := fun hlt =>
      hexcess ⟨hpos, (Number.ofNat_lt_iff (limit_lt t.size) h).mp hlt⟩
    obtain ⟨j, hj, hjle⟩ := Number.whole?_of_le (limit_lt t.size) h hle
    cases hj.symm.trans hk
    exact (Nat.le_div_iff_mul_le hpos).mp hjle

theorem repeated_copies (hnonneg : 0 ≤ x) (hexcess : ¬ Builder.Excess t x)
    (hk : Number.whole? x = some k) : repeated t x w = .ok (.text (Text.replicate k t)) w := by
  have hword : Number.toWord x = k := Number.toWord_of_whole hk
  have hnatural : ¬ (k : Int) < 0 := by omega
  unfold repeated
  dsimp only
  rw [if_neg (by simp [hnonneg]), if_neg (fun h => hexcess ((excess_iff hnonneg).mp h)), hword,
    if_neg hnatural, Int.toNat_natCast]
  split
  · rename_i hempty
    rw [Text.size_eq_zero (eq_of_beq hempty), Text.replicate_empty]
    rfl
  · rfl

theorem repeated_refused (h : ¬ 0 ≤ x ∨ Builder.Excess t x) :
    ∃ message, repeated t x w = .error (.fault (.raised .invalidOperand message)) w := by
  unfold repeated
  dsimp only
  by_cases hnonneg : 0 ≤ x
  · have hexcess := h.resolve_left (not_not_intro hnonneg)
    rw [if_neg (by simp [hnonneg]), if_pos ((excess_iff hnonneg).mpr hexcess)]
    exact ⟨_, rfl⟩
  · rw [if_pos (by simp [hnonneg])]
    exact ⟨_, rfl⟩

theorem repeated_breaks (hnonneg : 0 ≤ x) (hk : Number.whole? x = none) :
    ∃ message, repeated Text.empty x w = .error (.crash message) w := by
  have hword : Number.toWord x < 0 := Number.toWord_of_not_whole hk
  have hshort : ¬ Builder.Excess Text.empty x := fun h => absurd h.1 (by decide)
  unfold repeated
  dsimp only
  rw [if_neg (by simp [hnonneg]), if_neg (fun h => hshort ((excess_iff hnonneg).mp h)), if_pos hword]
  exact ⟨_, rfl⟩

/-- Only the empty text can be repeated more often than a machine word can count. -/
theorem whole_of_text (hnonneg : 0 ≤ x) (hexcess : ¬ Builder.Excess t x) (ht : t ≠ Text.empty) :
    ∃ k, Number.whole? x = some k := by
  have hpos : 0 < t.size := Nat.pos_of_ne_zero fun h => ht (Text.size_eq_zero h)
  obtain ⟨k, hk, -⟩ := Number.whole?_of_le (limit_lt t.size) hnonneg fun hlt =>
    hexcess ⟨hpos, (Number.ofNat_lt_iff (limit_lt t.size) hnonneg).mp hlt⟩
  exact ⟨k, hk⟩

end

/-!
# The natives of the standard library
-/

section
variable {n : NativeInfo} {args : List Value} {w : World}

/-- What a native does that does not break the engine. -/
def Settles (k : Builder) (args : List Value) (w : World) (a : Action) : Prop :=
  (∃ r s', a = .done (some r) { w with store := s' } ∧ k.Gives w.store args (.ok r) s') ∨
    ∃ f message, a = .fail (.raised f message) w ∧ k.Gives w.store args (.error f) w.store

theorem settles_numberRange {lo hi : Float} (hargs : Builder.Ends args lo hi) :
    Settles .range args w (Action.ofEffect (numberRange lo hi >>= fun v => pure (some v)) w) := by
  by_cases hfits : ∃ n, Number.span? (hi - lo) = some n ∧ n ≤ Effect.sequenceLimit
  · obtain ⟨n, hspan, hn⟩ := hfits
    rw [Action.ofEffect_ok (numberRange_items hspan hn)]
    exact .inl ⟨_, _, rfl, .items hargs hspan hn⟩
  · have hlong : ∀ n, Number.span? (hi - lo) = some n → Effect.sequenceLimit < n :=
      fun n hspan => Nat.lt_of_not_le fun hn => hfits ⟨n, hspan, hn⟩
    obtain ⟨message, hrefused⟩ := numberRange_tooLong (w := w) hlong
    rw [Action.ofEffect_fault hrefused]
    exact .inr ⟨_, message, rfl, .tooLong hargs hlong⟩

theorem settles_range (h : Library.standard.resolve "range" = some (.native n)) (args : List Value)
    (w : World) :
    n.arity = none ∧ Settles .range args w (Library.standard.behaviour n args w) := by
  have hstandard : Library.standard.resolve "range" = some (.native ⟨"range", none, 11⟩) :=
    Library.standard_native rfl
  rw [hstandard] at h
  cases h
  refine ⟨rfl, ?_⟩
  match args with
  | [] => exact .inr ⟨.arity, _, rfl, .arity (by decide)⟩
  | [v] =>
    cases v with
    | number hi => exact settles_numberRange (.upTo hi)
    | _ => exact .inr ⟨.typeMismatch, _, rfl, .mismatch (.inl rfl) (by rintro lo hi ⟨⟩)⟩
  | [u, v] =>
    cases u with
    | number lo =>
      cases v with
      | number hi => exact settles_numberRange (.between lo hi)
      | _ => exact .inr ⟨.typeMismatch, _, rfl, .mismatch (.inr rfl) (by rintro lo hi ⟨⟩)⟩
    | _ => exact .inr ⟨.typeMismatch, _, rfl, .mismatch (.inr rfl) (by rintro lo hi ⟨⟩)⟩
  | u :: v :: t :: rest =>
    refine .inr ⟨.arity, _, rfl, .arity ?_⟩
    simp

/-- A text and a number, as the method for repeating takes them. -/
theorem settles_repeated {t : Text} {x : Float} (h : ¬ Builder.times.Breaks [.text t, .number x]) :
    Settles .times [.text t, .number x] w
      (Action.ofEffect (repeated t x >>= fun v => pure (some v)) w) := by
  by_cases hrefused : ¬ 0 ≤ x ∨ Builder.Excess t x
  · obtain ⟨message, hraises⟩ := repeated_refused (w := w) hrefused
    rw [Action.ofEffect_fault hraises]
    exact .inr ⟨_, message, rfl, .refused hrefused⟩
  · obtain ⟨hnonneg, hexcess⟩ := not_or.mp hrefused
    rw [not_not] at hnonneg
    obtain ⟨k, hk⟩ : ∃ k, Number.whole? x = some k := by
      by_cases ht : t = Text.empty
      · subst ht
        cases hk : Number.whole? x with
        | none => exact (h ⟨rfl, x, rfl, hnonneg, hk⟩).elim
        | some k => exact ⟨k, rfl⟩
      · exact whole_of_text hnonneg hexcess ht
    rw [Action.ofEffect_ok (repeated_copies hnonneg hexcess hk)]
    exact .inl ⟨_, w.store, rfl, .copies hnonneg hk (copies_fit hnonneg hexcess hk)⟩

theorem settles_times (h : Library.standard.resolve (Key.join "times" "String") = some (.native n))
    (u v : Value) (w : World) :
    n.arity = some 2 ∧
      (¬ Builder.times.Breaks [u, v] →
        Settles .times [u, v] w (Library.standard.behaviour n [u, v] w)) ∧
      (Builder.times.Breaks [u, v] →
        ∃ message, Library.standard.behaviour n [u, v] w = .crash message w) := by
  have hstandard : Library.standard.resolve (Key.join "times" "String") =
      some (.native ⟨Key.join "times" "String", some 2, 27⟩) := Library.standard_native rfl
  rw [hstandard] at h
  cases h
  refine ⟨rfl, fun hsound => ?_, ?_⟩
  · cases u with
    | text t =>
      cases v with
      | number x => exact settles_repeated hsound
      | _ => exact .inr ⟨.typeMismatch, _, rfl, .mismatch rfl (by rintro t x ⟨⟩)⟩
    | inst i =>
      -- An instance is refused as a receiver or, should its type pass for a string, as an operand.
      show Settles _ _ _ (Primitive.guarded _ _ _ [.inst i, v] w)
      unfold Primitive.guarded
      dsimp only
      split <;> exact .inr ⟨.typeMismatch, _, rfl, .mismatch rfl (by rintro t x ⟨⟩)⟩
    | _ => exact .inr ⟨.typeMismatch, _, rfl, .mismatch rfl (by rintro t x ⟨⟩)⟩
  · rintro ⟨-, x, hargs, hnonneg, hk⟩
    cases hargs
    obtain ⟨message, hcrash⟩ := repeated_breaks (w := w) hnonneg hk
    exact ⟨message, Action.ofEffect_crash hcrash⟩

/-- What either native does to as many arguments as it takes. -/
theorem settles {k : Builder} {all : List Value}
    (h : Library.standard.resolve k.key = some (.native n)) (htakes : State.Takes n all) (w : World) :
    (¬ k.Breaks all → Settles k all w (Library.standard.behaviour n all w)) ∧
      (k.Breaks all → ∃ message, Library.standard.behaviour n all w = .crash message w) := by
  cases k with
  | range =>
    refine ⟨fun _ => (settles_range h all w).2, ?_⟩
    rintro ⟨⟨⟩, -⟩
  | times =>
    have harity := (settles_times h .null .null w).1
    obtain ⟨u, v, rfl⟩ := List.length_eq_two.mp (htakes 2 harity)
    exact (settles_times h u v w).2

theorem refuses {k : Builder} {all : List Value}
    (h : Library.standard.resolve k.key = some (.native n)) (htakes : ¬ State.Takes n all)
    (s : Store) : ¬ k.Breaks all ∧ k.Gives s all (.error .arity) s := by
  cases k with
  | range =>
    refine (htakes fun arity hsome => ?_).elim
    rw [(settles_range h all default).1] at hsome
    cases hsome
  | times =>
    have hlength : all.length ≠ 2 := fun heq => htakes fun arity hsome => by
      rw [(settles_times h .null .null default).1] at hsome
      cases hsome
      exact heq
    refine ⟨?_, .arity hlength⟩
    rintro ⟨-, x, rfl, -⟩
    exact hlength rfl

end

end Native

open Native

/-- What `range` and the repetition of strings come to, for all arguments. Unless the empty string is to
be repeated without end or `2^63` times or more, they give what `Gives` says, which is never longer
than the limit, or a diagnostic; in that one case the engine breaks. -/
theorem sized_natives_settle (k : Builder) (m : Machine) (pending : List Pending) (n : NativeInfo)
    (receiver : Option Value) (args : List Value)
    (hn : Library.standard.resolve k.key = some (.native n))
    (hbehaviour : m.library.behaviour n = Library.standard.behaviour n) :
    (nativeLimit ≤ m.natives.size → ∃ f message,
      State.advance ⟨m, pending, .invoking (Value.callable n receiver) args⟩ =
          .next ⟨m, pending, .delivering (.error (.raised f message))⟩ ∧
        (f = .arity ∨ f = .callDepth)) ∧
    (m.natives.size < nativeLimit →
      (¬ k.Breaks (Exec.withReceiver receiver args) → ∃ m' outcome,
        State.advance ⟨m, pending, .invoking (Value.callable n receiver) args⟩ =
            .next ⟨m', pending, .delivering outcome⟩ ∧
          k.Gives m.world.store (Exec.withReceiver receiver args)
            (outcome.mapError Fault.failure) m'.world.store) ∧
      (k.Breaks (Exec.withReceiver receiver args) → ∃ message m',
        State.advance ⟨m, pending, .invoking (Value.callable n receiver) args⟩ =
          .crashed message m')) := by
  rw [State.advance_callable]
  generalize hall : Exec.withReceiver receiver args = all
  by_cases htakes : State.Takes n all
  · obtain ⟨hsettles, hcrash⟩ := settles hn htakes m.world
    rw [State.startNative_takes (hall ▸ htakes), hall]
    rw [← hbehaviour] at hsettles hcrash
    refine ⟨fun hfull => ?_, fun hroom => ⟨fun hsound => ?_, fun hbreaks => ?_⟩⟩
    · obtain ⟨message, hrefused⟩ := State.enterNative_full all hfull
      exact ⟨_, message, hrefused, .inr rfl⟩
    · rcases hsettles hsound with ⟨r, s', hdone, hgives⟩ | ⟨f, message, hfail, hgives⟩
      · exact ⟨_, _, State.enterNative_done hroom hdone, hgives⟩
      · obtain ⟨m', hended, hstore⟩ := State.enterNative_fail pending hroom hfail
        refine ⟨m', _, hended, ?_⟩
        rw [hstore]
        exact hgives
    · obtain ⟨message, hbreak⟩ := hcrash hbreaks
      exact ⟨message, State.enterNative_crash hroom hbreak⟩
  · obtain ⟨hsound, hgives⟩ := refuses hn htakes m.world.store
    obtain ⟨message, hrefused⟩ := State.startNative_refused (m := m) (hall ▸ htakes)
    refine ⟨fun _ => ⟨_, message, hrefused, .inl rfl⟩, fun _ => ⟨fun _ => ?_, fun hbreaks => ?_⟩⟩
    · exact ⟨m, _, hrefused, hgives⟩
    · exact (hsound hbreaks).elim

theorem sized_natives_settle_thrice :
    ∃ m' outcome, State.advance ⟨standardEngine, [],
        .invoking (.bound ⟨Key.join "times" "String", some 2, 27⟩ (.text "ab"))
          [.number (Number.ofNat 3)]⟩ = .next ⟨m', [], .delivering outcome⟩ ∧
      Builder.times.Gives .empty [.text "ab", .number (Number.ofNat 3)]
        (outcome.mapError Fault.failure) m'.world.store := by
  obtain ⟨-, hroom⟩ := sized_natives_settle .times standardEngine []
    ⟨Key.join "times" "String", some 2, 27⟩ (some (.text "ab")) [.number (Number.ofNat 3)]
    (Library.standard_native rfl) rfl
  refine (hroom (by decide)).1 ?_
  rintro ⟨-, x, hargs, -, hk⟩
  cases hargs

/-!
# The empty string without end
-/

/-- The program `return "" * 1e19`. -/
def emptyRepeated : List Stmt :=
  [.ret .zero (some (.binary .zero "*" (.text .zero Text.empty) (.number .zero 1e19)))]

/-- The program breaks the engine, though the result would be as short as can be. -/
theorem empty_repeated_breaks :
    ∃ c, (Compiler.compile .absent false emptyRepeated).result = .ok c ∧
      ((standardEngine.execute 20 c.program).map fun e => match e.1 with
        | .value _ => []
        | .failed problems _ => problems.toList.map (·.code)) =
        some (["RE0000"] : List Text) :=
  ⟨_, rfl, by decide +kernel⟩

end ScriptEngine
