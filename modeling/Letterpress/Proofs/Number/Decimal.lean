import Letterpress.Number.Decimal

/-!
# Numerals are read back

A number of fixed width is read back from the numeral that is written for it.
-/

namespace Letterpress.Number

theorem digit?_of_isDigit {c : Char} (h : c.isDigit) : digit? c = some (c.toNat - '0'.toNat) := by
  simp only [Char.isDigit, Bool.and_eq_true, decide_eq_true_eq] at h
  rw [digit?, if_pos]
  simpa [Char.le_def] using h

theorem natural?_toDigits (n : Nat) : natural? (Nat.toDigits 10 n) = some n := by
  have folds : ∀ (cs : List Char) (k : Nat), (∀ c ∈ cs, c.isDigit) →
      cs.foldlM (fun n c => (digit? c).map (10 * n + ·)) k = some (Nat.ofDigitChars 10 cs k) := by
    intro cs
    induction cs with
    | nil => intro k _; rfl
    | cons c cs ih =>
      intro k h
      rw [List.foldlM_cons, digit?_of_isDigit (h c (List.mem_cons_self ..)), Nat.ofDigitChars_cons]
      exact ih _ fun d hd => h d (List.mem_cons_of_mem _ hd)
  have hne : (Nat.toDigits 10 n).isEmpty = false := by simp [Nat.toDigits_ne_nil]
  rw [natural?, hne]
  simpa using folds (Nat.toDigits 10 n) 0 fun c hc =>
    Nat.isDigit_of_mem_toDigits (by decide) (by decide) hc

/-- No numeral of a natural number begins with a sign. -/
theorem toDigits_ne_sign {n : Nat} {c : Char} {cs : List Char} (hc : c.isDigit = false) :
    Nat.toDigits 10 n ≠ c :: cs := by
  intro h
  have : c ∈ Nat.toDigits 10 n := h ▸ List.mem_cons_self ..
  exact absurd (Nat.isDigit_of_mem_toDigits (by decide) (by decide) this) (by simp [hc])

theorem unsigned?_toDigits {limit n : Nat} (h : n < limit) :
    unsigned? limit (Nat.toDigits 10 n) = some n := by
  unfold unsigned?
  split
  · next he => exact absurd he (toDigits_ne_sign rfl)
  · simp [natural?_toDigits, h]

theorem signed?_toString {limit : Nat} {n : Int} (hl : -(limit : Int) ≤ n) (hu : n < limit) :
    signed? limit (toString n).toList = some n := by
  cases n with
  | ofNat n =>
    have hn : n < limit := by simpa using hu
    rw [show toString (Int.ofNat n) = n.repr from rfl, Nat.toList_repr]
    unfold signed?
    split
    · next he => exact absurd he (toDigits_ne_sign rfl)
    · rw [unsigned?_toDigits hn]; rfl
  | negSucc n =>
    have hn : n + 1 ≤ limit := by omega
    have hshow : (toString (Int.negSucc n)).toList = '-' :: Nat.toDigits 10 (n + 1) := by
      rw [show toString (Int.negSucc n) = "-" ++ (n + 1).repr from rfl, String.toList_append,
        Nat.toList_repr]
      rfl
    rw [hshow, signed?, natural?_toDigits, Option.filter_some, if_pos (by simpa using hn)]
    rfl

@[simp] theorem uint32?_showUInt32 (n : UInt32) : uint32? (showUInt32 n) = some n := by
  rw [uint32?, showUInt32, show toString n.toNat = n.toNat.repr from rfl, Nat.toList_repr,
    unsigned?_toDigits n.toNat_lt]
  simp

@[simp] theorem int32?_showInt32 (n : Int32) : int32? (showInt32 n) = some n := by
  rw [int32?, showInt32, signed?_toString n.le_toInt n.toInt_lt]
  simp

@[simp] theorem int64?_showInt64 (n : Int64) : int64? (showInt64 n) = some n := by
  rw [int64?, showInt64, signed?_toString n.le_toInt n.toInt_lt]
  simp

@[simp] theorem bind_map_showUInt32 (n : Option UInt32) : (n.map showUInt32).bind uint32? = n := by
  cases n <;> simp

@[simp] theorem bind_map_showInt32 (n : Option Int32) : (n.map showInt32).bind int32? = n := by
  cases n <;> simp

end Letterpress.Number
