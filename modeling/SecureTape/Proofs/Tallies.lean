import Mathlib
import SecureTape.Requirement.Tree

/-!
# Counts and tallies in the extended naturals

A count stands for an extended natural number: itself, or infinity. Saturation turns an extended
natural number into the count that stands for it, infinity from the range of 64 bits on. Main
statements:
1. `saturate_add`, `saturate_mul`, `saturate_max`: saturation commutes with the arithmetic of
   counts, so an overflow is never forgotten.
2. `get_sum`, `get_max`, `get_scale`, `get_unbound`: tallies are added, compared and scaled resource
   by resource.
3. `get_combine`: the tally of a group is the saturated combination of its members.
-/

namespace SecureTape

open List Tally

variable {v : ℕ∞} {a b : Count} {f : Count → Count} {ws : List ℕ∞}

namespace Count

def value : Count → ℕ∞
  | .finite n => n
  | .unbounded => ⊤

/-- The count is a number of 64 bits or unbounded. -/
def Valid : Count → Prop
  | .finite n => n < countRange
  | .unbounded => True

instance : DecidablePred Valid
  | .finite n => inferInstanceAs (Decidable (n < countRange))
  | .unbounded => inferInstanceAs (Decidable True)

/-- The count that stands for a number: unbounded from the range of 64 bits on. -/
noncomputable def saturate (v : ℕ∞) : Count :=
  if v < countRange then .finite v.toNat else .unbounded

theorem countRange_pos : 0 < countRange := by decide

theorem saturate_coe (n : Nat) : saturate n = ofNat n := by
  simp [saturate, ofNat]

theorem saturate_top : saturate ⊤ = .unbounded := by
  simp [saturate]

@[simp] theorem saturate_zero : saturate 0 = zero := by
  have h := saturate_coe 0
  rwa [ofNat, if_pos countRange_pos] at h

variable {c : Count}

theorem saturate_value (hc : c.Valid) : saturate c.value = c := by
  cases c with
  | finite n => exact (saturate_coe n).trans (if_pos hc)
  | unbounded => exact saturate_top

theorem valid_ofNat (n : Nat) : (ofNat n).Valid := by
  unfold ofNat
  split
  · assumption
  · trivial

theorem le_value_saturate (v : ℕ∞) : v ≤ (saturate v).value := by
  cases v with
  | top => rw [saturate_top]; exact le_rfl
  | coe n =>
    rw [saturate_coe, ofNat]
    split
    · exact le_rfl
    · exact le_top

/-! ## Saturation commutes with the arithmetic of counts -/

theorem add_unbounded (c : Count) : c.add .unbounded = .unbounded := by
  cases c <;> rfl

theorem unbounded_add (c : Count) : Count.unbounded.add c = .unbounded := by
  cases c <;> rfl

theorem saturate_add (v w : ℕ∞) : saturate (v + w) = (saturate v).add (saturate w) := by
  cases v with
  | top => rw [top_add, saturate_top, unbounded_add]
  | coe m =>
    cases w with
    | top => rw [add_top, saturate_top, add_unbounded]
    | coe n =>
      rw [← Nat.cast_add, saturate_coe, saturate_coe, saturate_coe]
      unfold ofNat
      by_cases hm : m < countRange
      · by_cases hn : n < countRange
        · rw [if_pos hm, if_pos hn]
          rfl
        · rw [if_neg hn, add_unbounded, if_neg (by omega)]
      · rw [if_neg hm, unbounded_add, if_neg (by omega)]

theorem mul_zero_eq (c : Count) : c.mul zero = zero := by
  cases c with
  | finite n => cases n <;> rfl
  | unbounded => rfl

theorem zero_mul_eq (c : Count) : zero.mul c = zero := rfl

theorem mul_unbounded (hc : c ≠ zero) : c.mul .unbounded = .unbounded := by
  cases c with
  | finite n =>
    cases n with
    | zero => exact absurd rfl hc
    | succ n => rfl
  | unbounded => rfl

theorem unbounded_mul (hc : c ≠ zero) : Count.unbounded.mul c = .unbounded := by
  cases c with
  | finite n =>
    cases n with
    | zero => exact absurd rfl hc
    | succ n => rfl
  | unbounded => rfl

theorem saturate_ne_zero (hv : v ≠ 0) : saturate v ≠ zero := by
  cases v with
  | top => rw [saturate_top]; exact nofun
  | coe n =>
    rw [saturate_coe, ofNat]
    split
    · intro h
      exact hv (by rw [Count.finite.inj h]; rfl)
    · exact nofun

theorem finite_mul_finite (m n : Nat) : (Count.finite m).mul (.finite n) = ofNat (m * n) := by
  cases m with
  | zero => simp [mul, zero, ofNat, countRange_pos]
  | succ m =>
    cases n with
    | zero => simp [mul, zero, ofNat, countRange_pos]
    | succ n => rfl

theorem saturate_mul (v w : ℕ∞) : saturate (v * w) = (saturate v).mul (saturate w) := by
  by_cases hv : v = 0
  · rw [hv, zero_mul, saturate_zero, zero_mul_eq]
  by_cases hw : w = 0
  · rw [hw, mul_zero, saturate_zero, mul_zero_eq]
  have hv' := saturate_ne_zero hv
  have hw' := saturate_ne_zero hw
  cases v with
  | top => rw [ENat.top_mul hw, saturate_top, unbounded_mul hw']
  | coe m =>
    cases w with
    | top => rw [ENat.mul_top hv, saturate_top, mul_unbounded hv']
    | coe n =>
      have hm : 1 ≤ m := Nat.one_le_iff_ne_zero.2 (by exact_mod_cast hv)
      have hn : 1 ≤ n := Nat.one_le_iff_ne_zero.2 (by exact_mod_cast hw)
      rw [saturate_coe] at hv' hw'
      rw [← Nat.cast_mul, saturate_coe, saturate_coe, saturate_coe]
      -- A product of positive numbers leaves the range if one of its factors does.
      by_cases hm' : m < countRange
      · by_cases hn' : n < countRange
        · rw [ofNat, ofNat, ofNat, if_pos hm', if_pos hn', finite_mul_finite, ofNat]
        · have hover : n ≤ m * n := Nat.le_mul_of_pos_left n hm
          have hn'' : ofNat n = .unbounded := if_neg hn'
          rw [hn'', mul_unbounded hv', ofNat, if_neg (by omega)]
      · have hover : m ≤ m * n := Nat.le_mul_of_pos_right m hn
        have hm'' : ofNat m = .unbounded := if_neg hm'
        rw [hm'', unbounded_mul hw', ofNat, if_neg (by omega)]

theorem value_max (a b : Count) : (a.max b).value = Max.max a.value b.value := by
  cases a with
  | unbounded => cases b <;> simp [max, lt, value]
  | finite m =>
    cases b with
    | unbounded => simp [max, lt, value]
    | finite n =>
      by_cases h : m < n
      · simp [max, lt, value, h, h.le]
      · simp [max, lt, value, h, not_lt.1 h]

theorem valid_max (ha : a.Valid) (hb : b.Valid) : (a.max b).Valid := by
  unfold max
  split
  · exact hb
  · exact ha

theorem valid_add (a b : Count) : (a.add b).Valid := by
  cases a with
  | unbounded => rw [unbounded_add]; trivial
  | finite m =>
    cases b with
    | unbounded => trivial
    | finite n => exact valid_ofNat (m + n)

theorem valid_mul (a b : Count) : (a.mul b).Valid := by
  by_cases ha : a = zero
  · rw [ha, zero_mul_eq]; exact countRange_pos
  by_cases hb : b = zero
  · rw [hb, mul_zero_eq]; exact countRange_pos
  cases a with
  | unbounded => rw [unbounded_mul hb]; trivial
  | finite m =>
    cases b with
    | unbounded => rw [mul_unbounded ha]; trivial
    | finite n => rw [finite_mul_finite]; exact valid_ofNat (m * n)

theorem add_zero_eq (hc : c.Valid) : c.add zero = c := by
  have h := saturate_add c.value 0
  rw [add_zero, saturate_value hc, saturate_zero] at h
  exact h.symm

theorem zero_add_eq (hc : c.Valid) : zero.add c = c := by
  rw [add_comm, add_zero_eq hc]

theorem max_zero_eq (c : Count) : c.max zero = c := by
  cases c <;> simp [max, lt, zero]

theorem saturate_mono_value {w : ℕ∞} (h : v ≤ w) : (saturate v).value ≤ (saturate w).value := by
  unfold saturate
  by_cases hw : w < countRange
  · have hv := h.trans_lt hw
    rw [if_pos hv, if_pos hw]
    show (v.toNat : ℕ∞) ≤ w.toNat
    rw [ENat.natCast_toNat hv.ne_top, ENat.natCast_toNat hw.ne_top]
    exact h
  · rw [if_neg hw]
    exact le_top

theorem value_injective (h : a.value = b.value) : a = b := by
  cases a with
  | finite m =>
    cases b with
    | finite n => exact congrArg Count.finite (Nat.cast_injective h)
    | unbounded => exact absurd h (ENat.natCast_ne_top m)
  | unbounded =>
    cases b with
    | finite n => exact absurd h.symm (ENat.natCast_ne_top n)
    | unbounded => rfl

theorem one_le_value_iff : 1 ≤ c.value ↔ c ≠ zero := by
  rw [Order.one_le_iff_ne_zero]
  refine not_congr ⟨fun h => value_injective h, ?_⟩
  rintro rfl
  rfl

theorem top_le_value_iff : ⊤ ≤ c.value ↔ c = .unbounded := by
  rw [top_le_iff]
  refine ⟨fun h => value_injective h, ?_⟩
  rintro rfl
  rfl

theorem saturate_max (v w : ℕ∞) : saturate (Max.max v w) = (saturate v).max (saturate w) := by
  refine value_injective ?_
  rw [value_max]
  rcases le_total v w with h | h
  · rw [max_eq_right h, max_eq_right (saturate_mono_value h)]
  · rw [max_eq_left h, max_eq_left (saturate_mono_value h)]

end Count

/-! ## The order of resources -/

namespace Resource

variable {a b : Resource}

theorem sortKey_injective (h : a.sortKey = b.sortKey) : a = b := by
  have hdomain : ∀ d e : FieldDomain, d.code = e.code ↔ d = e := by
    intro d e
    cases d <;> cases e <;> decide
  have hkind : ∀ k l : DataKind, k.code = l.code ↔ k = l := by
    intro k l
    cases k <;> cases l <;> decide
  cases a <;> cases b <;> simp_all [sortKey]
  case edabit.edabit x _ y _ => cases x <;> cases y <;> simp_all

theorem before_irrefl (a : Resource) : a.before a = false := by
  simp [before]

theorem before_trans {c : Resource} (hab : a.before b) (hbc : b.before c) : a.before c := by
  simp only [before, decide_eq_true_eq] at hab hbc ⊢
  exact hab.trans hbc

theorem before_of_not (hne : a ≠ b) (h : ¬ a.before b) : b.before a := by
  simp only [before, decide_eq_true_eq] at h ⊢
  exact lt_of_le_of_ne (not_lt.1 h) fun heq => hne (sortKey_injective heq).symm

theorem ne_of_before (h : a.before b) : a ≠ b := by
  rintro rfl
  rw [before_irrefl] at h
  cases h

end Resource

/-! ## Tallies, resource by resource -/

namespace Tally

variable {t u : Tally} {r : Resource} {n : Count}

/-- The entries are in the order of the resources, and their counts are valid. -/
structure Valid (t : Tally) : Prop where
  sorted : t.entries.Pairwise fun a b => a.1.before b.1
  counts : ∀ e ∈ t.entries, e.2.Valid

instance (t : Tally) : Decidable t.Valid :=
  decidable_of_iff (t.entries.Pairwise (fun a b => a.1.before b.1) ∧ ∀ e ∈ t.entries, e.2.Valid)
    ⟨fun h => ⟨h.1, h.2⟩, fun h => ⟨h.sorted, h.counts⟩⟩

theorem valid_empty : empty.Valid :=
  ⟨.nil, by simp [empty]⟩

@[simp] theorem get_empty (r : Resource) : empty.get r = .zero := rfl

theorem get_cons (k : Resource) (n : Count) (es : List (Resource × Count)) (r : Resource) :
    get ⟨(k, n) :: es⟩ r = if r = k then n else get ⟨es⟩ r := by
  unfold get
  by_cases h : r = k
  · simp [h]
  · rw [if_neg h, lookup_cons]
    have hne : (r == k) = false := by simpa using h
    rw [hne]

variable {es : List (Resource × Count)}

theorem get_of_before (h : ∀ e ∈ es, r.before e.1) : get ⟨es⟩ r = .zero := by
  induction es with
  | nil => rfl
  | cons e es ih =>
    have he := h e (.head _)
    rw [get_cons, if_neg (Resource.ne_of_before he)]
    exact ih fun e' he' => h e' (.tail _ he')

theorem mem_alter {e : Resource × Count} (he : e ∈ alter r f es) :
    e ∈ es ∨ e.1 = r ∧ (e.2 = f .zero ∨ ∃ n, (r, n) ∈ es ∧ e.2 = f n) := by
  induction es with
  | nil =>
    simp only [alter, mem_singleton] at he
    simp [he]
  | cons d es ih =>
    unfold alter at he
    split at he
    · rename_i heq
      rcases mem_cons.1 he with rfl | he
      · refine .inr ⟨heq.symm, .inr ⟨d.2, ?_, rfl⟩⟩
        rw [heq]
        exact .head _
      · exact .inl (.tail _ he)
    · split at he
      · rcases mem_cons.1 he with rfl | he
        · exact .inr ⟨rfl, .inl rfl⟩
        · exact .inl he
      · rcases mem_cons.1 he with rfl | he
        · exact .inl (.head _)
        · rcases ih he with h | ⟨h, h' | ⟨n, hn, h'⟩⟩
          · exact .inl (.tail _ h)
          · exact .inr ⟨h, .inl h'⟩
          · exact .inr ⟨h, .inr ⟨n, .tail _ hn, h'⟩⟩

theorem valid_alter (ht : t.Valid) (hzero : (f .zero).Valid) (hf : ∀ n, n.Valid → (f n).Valid) :
    Valid ⟨alter r f t.entries⟩ := by
  obtain ⟨es⟩ := t
  obtain ⟨hsorted, hcounts⟩ := ht
  refine ⟨?_, fun e he => ?_⟩
  · simp only at hsorted ⊢
    clear hcounts
    induction es with
    | nil => exact pairwise_singleton _ _
    | cons d es ih =>
      obtain ⟨hd, hes⟩ := pairwise_cons.1 hsorted
      unfold alter
      split
      · exact .cons hd hes
      · rename_i hne
        split
        · rename_i hbefore
          refine .cons (fun e he => ?_) hsorted
          rcases mem_cons.1 he with rfl | he
          · exact hbefore
          · exact Resource.before_trans hbefore (hd e he)
        · rename_i hnot
          refine .cons (fun e he => ?_) (ih hes)
          rcases mem_alter he with he | ⟨heq, -⟩
          · exact hd e he
          · rw [heq]
            exact Resource.before_of_not hne hnot
  · rcases mem_alter he with he | ⟨-, h | ⟨n, hn, h⟩⟩
    · exact hcounts e he
    · rw [h]; exact hzero
    · rw [h]; exact hf n (hcounts _ hn)

theorem get_alter (hsorted : es.Pairwise fun a b => a.1.before b.1) (q : Resource) :
    get ⟨alter r f es⟩ q = if q = r then f (get ⟨es⟩ r) else get ⟨es⟩ q := by
  induction es with
  | nil =>
    rw [alter, get_cons]
    rfl
  | cons d es ih =>
    obtain ⟨hd, hes⟩ := pairwise_cons.1 hsorted
    unfold alter
    split
    · rename_i heq
      rw [get_cons, get_cons, get_cons, if_pos heq, heq]
      by_cases hq : q = d.1
      · rw [if_pos hq, if_pos hq]
      · rw [if_neg hq, if_neg hq, if_neg hq]
    · rename_i hne
      split
      · rename_i hbefore
        have hzero : get ⟨d :: es⟩ r = .zero := by
          refine get_of_before fun e he => ?_
          rcases mem_cons.1 he with rfl | he
          · exact hbefore
          · exact Resource.before_trans hbefore (hd e he)
        rw [get_cons, hzero]
      · rw [get_cons, ih hes, get_cons, get_cons, if_neg hne]
        by_cases hq : q = d.1
        · rw [if_pos hq, if_pos hq, if_neg (by rw [hq]; exact Ne.symm hne)]
        · rw [if_neg hq, if_neg hq]

theorem valid_get (ht : t.Valid) (r : Resource) : (t.get r).Valid := by
  unfold get
  cases h : t.entries.lookup r with
  | none => exact Count.countRange_pos
  | some n =>
    obtain ⟨l₁, l₂, heq, -⟩ := lookup_eq_some_iff.1 h
    exact ht.counts (r, n) (by simp [heq])

theorem valid_increment (ht : t.Valid) : (t.increment r n).Valid := by
  unfold increment
  split
  · exact ht
  · exact valid_alter ht (Count.valid_add _ _) fun _ _ => Count.valid_add _ _

theorem get_increment (ht : t.Valid) (q : Resource) :
    (t.increment r n).get q = if q = r then (t.get q).add n else t.get q := by
  unfold increment
  split
  · rename_i hzero
    rw [Count.isZero_eq_true_iff.1 hzero, Count.add_zero_eq (valid_get ht q), ite_self]
  · rw [get_alter ht.sorted]
    split
    · rename_i hq
      rw [hq]
    · rfl

/-- A fold that changes the count of one resource at a time does so for each resource once. -/
theorem get_foldl {step : Tally → Resource × Count → Tally} {f : Count → Count → Count}
    (hvalid : ∀ t e, t.Valid → e.2.Valid → (step t e).Valid)
    (hget : ∀ t e q, t.Valid → e.2.Valid →
      (step t e).get q = if q = e.1 then f (t.get q) e.2 else t.get q)
    (hzero : ∀ c, c.Valid → f c .zero = c) (ht : t.Valid) (hu : u.Valid) :
    (u.entries.foldl step t).Valid ∧
      ∀ q, (u.entries.foldl step t).get q = f (t.get q) (u.get q) := by
  obtain ⟨es⟩ := u
  obtain ⟨hsorted, hcounts⟩ := hu
  simp only at hsorted hcounts ⊢
  induction es generalizing t with
  | nil => exact ⟨ht, fun q => (hzero _ (valid_get ht q)).symm⟩
  | cons e es ih =>
    obtain ⟨he, hes⟩ := pairwise_cons.1 hsorted
    have hn := hcounts e (.head _)
    obtain ⟨hv, hg⟩ := ih (hvalid t e ht hn) hes fun d hd => hcounts d (.tail _ hd)
    refine ⟨hv, fun q => ?_⟩
    rw [foldl_cons, hg, hget t e q ht hn, get_cons]
    split
    · -- The resource of the first entry is in no other.
      rename_i hq
      have hnone : get ⟨es⟩ q = .zero := get_of_before fun d hd => by rw [hq]; exact he d hd
      rw [hnone]
      refine hzero _ ?_
      have := valid_get (hvalid t e ht hn) q
      rwa [hget t e q ht hn, if_pos hq] at this
    · rfl

theorem valid_sum (ht : t.Valid) (hu : u.Valid) : (t.sum u).Valid :=
  (get_foldl (fun _ _ ht _ => valid_increment ht) (fun _ _ q ht _ => get_increment ht q)
    (fun _ => Count.add_zero_eq) ht hu).1

theorem get_sum (ht : t.Valid) (hu : u.Valid) (q : Resource) :
    (t.sum u).get q = (t.get q).add (u.get q) :=
  (get_foldl (fun _ _ ht _ => valid_increment ht) (fun _ _ q ht _ => get_increment ht q)
    (fun _ => Count.add_zero_eq) ht hu).2 q

theorem max_spec (ht : t.Valid) (hu : u.Valid) :
    (t.max u).Valid ∧ ∀ q, (t.max u).get q = (t.get q).max (u.get q) := by
  refine get_foldl (fun t e ht hn => ?_) (fun t e q ht _ => ?_) (fun c _ => c.max_zero_eq) ht hu
  · exact valid_alter ht (Count.valid_max Count.countRange_pos hn) fun _ h => Count.valid_max h hn
  · rw [get_alter ht.sorted]
    split
    · rename_i hq
      rw [hq]
    · rfl

theorem scale_spec (ht : t.Valid) (n : Count) :
    (t.scale n).Valid ∧ ∀ q, (t.scale n).get q = (t.get q).mul n := by
  have hfold := get_foldl (f := fun c d => c.add (d.mul n))
    (fun _ _ ht _ => valid_increment ht)
    (fun t e q ht _ => get_increment ht q)
    (fun c hc => by rw [Count.zero_mul_eq, Count.add_zero_eq hc]) valid_empty ht
  refine ⟨hfold.1, fun q => (hfold.2 q).trans ?_⟩
  exact Count.zero_add_eq (Count.valid_mul _ _)

theorem unbound_spec (ht : t.Valid) :
    t.unbound.Valid ∧
      ∀ q, t.unbound.get q = if (t.get q).isZero then .zero else .unbounded := by
  obtain ⟨es⟩ := t
  obtain ⟨hsorted, hcounts⟩ := ht
  refine ⟨⟨pairwise_map.2 hsorted, ?_⟩, fun q => ?_⟩
  · intro e he
    obtain ⟨d, hd, rfl⟩ := mem_map.1 he
    simp only
    split
    · exact hcounts d hd
    · trivial
  · clear hsorted hcounts
    induction es with
    | nil => rfl
    | cons e es ih =>
      show get ⟨(e.1, _) :: _⟩ q = _
      rw [get_cons, get_cons]
      split
      · split
        · rename_i h
          exact Count.isZero_eq_true_iff.1 h
        · rfl
      · exact ih

end Tally

/-! ## Groups -/

namespace Combinator

/-- What a group needs, from what its members need. -/
noncomputable def value : Combinator → List ℕ∞ → ℕ∞
  | .sum, vs => vs.sum
  | .max, vs => vs.foldr Max.max 0
  | .times n, vs => n.value * vs.sum

def Valid : Combinator → Prop
  | .times n => n.Valid
  | _ => True

instance : DecidablePred Valid
  | .times n => inferInstanceAs (Decidable n.Valid)
  | .sum => .isTrue trivial
  | .max => .isTrue trivial

variable {parts : List Tally} {vs : List ℕ∞} {q : Resource} {acc : Tally} {c : Combinator}

theorem valid_foldl {f : Tally → Tally → Tally}
    (hf : ∀ t u : Tally, t.Valid → u.Valid → (f t u).Valid) (hvalid : ∀ t ∈ parts, t.Valid)
    (hacc : acc.Valid) : (parts.foldl f acc).Valid := by
  induction parts generalizing acc with
  | nil => exact hacc
  | cons t parts ih =>
    have ht := hvalid t (.head _)
    exact ih (fun u hu => hvalid u (.tail _ hu)) (hf acc t hacc ht)

theorem valid_combine (c : Combinator) (hvalid : ∀ t ∈ parts, t.Valid) :
    (c.combine parts).Valid := by
  have hsum := valid_foldl (fun _ _ => valid_sum) hvalid valid_empty
  cases c with
  | sum => exact hsum
  | max => exact valid_foldl (fun _ _ ht hu => (max_spec ht hu).1) hvalid valid_empty
  | times n => exact (scale_spec hsum n).1

section Values

variable (hvalid : ∀ t ∈ parts, t.Valid)
  (hparts : Forall₂ (fun t v => t.get q = Count.saturate v) parts vs)

include hvalid hparts

theorem get_foldl_sum (hacc : acc.Valid) (hv : acc.get q = Count.saturate v) :
    (parts.foldl Tally.sum acc).get q = Count.saturate (v + vs.sum) := by
  induction hparts generalizing acc v with
  | nil => simpa using hv
  | @cons t w parts vs ht _ ih =>
    have htv := hvalid t (.head _)
    have hnext := ih (fun u hu => hvalid u (.tail _ hu)) (valid_sum hacc htv)
      (v := v + w) (by rw [get_sum hacc htv, hv, ht, Count.saturate_add])
    rw [foldl_cons, sum_cons, ← add_assoc]
    exact hnext

theorem get_foldl_max (hacc : acc.Valid) (hv : acc.get q = Count.saturate v) :
    (parts.foldl Tally.max acc).get q = Count.saturate (Max.max v (vs.foldr Max.max 0)) := by
  induction hparts generalizing acc v with
  | nil => simpa using hv
  | @cons t w parts vs ht _ ih =>
    obtain ⟨hmax, hget⟩ := max_spec hacc (hvalid t (.head _))
    have hnext := ih (fun u hu => hvalid u (.tail _ hu)) hmax
      (v := Max.max v w) (by rw [hget, hv, ht, Count.saturate_max])
    rw [foldl_cons, foldr_cons, ← max_assoc]
    exact hnext

end Values

theorem get_combine (hc : c.Valid) (hvalid : ∀ t ∈ parts, t.Valid)
    (hparts : Forall₂ (fun t v => t.get q = Count.saturate v) parts vs) :
    (c.combine parts).get q = Count.saturate (c.value vs) := by
  have hempty : empty.get q = Count.saturate 0 := by rw [get_empty, Count.saturate_zero]
  cases c with
  | sum =>
    have h := get_foldl_sum hvalid hparts Tally.valid_empty hempty
    rwa [zero_add] at h
  | max =>
    have h := get_foldl_max hvalid hparts Tally.valid_empty hempty
    rwa [zero_max] at h
  | times n =>
    have hsum := valid_foldl (fun _ _ => valid_sum) hvalid valid_empty
    have h := get_foldl_sum hvalid hparts Tally.valid_empty hempty
    rw [zero_add] at h
    show ((parts.foldl Tally.sum Tally.empty).scale n).get q = _
    rw [(scale_spec hsum n).2, h, value, mul_comm, Count.saturate_mul, Count.saturate_value hc]

theorem value_perm (c : Combinator) (h : vs.Perm ws) : c.value vs = c.value ws := by
  cases c with
  | sum => exact h.sum_eq
  | max => exact h.foldr_eq 0
  | times n => exact congrArg (n.value * ·) h.sum_eq

theorem sum_mono (h : Forall₂ (· ≤ ·) vs ws) : vs.sum ≤ ws.sum := by
  induction h with
  | nil => exact le_rfl
  | cons hv _ ih => exact add_le_add hv ih

theorem value_mono (c : Combinator) (h : Forall₂ (· ≤ ·) vs ws) : c.value vs ≤ c.value ws := by
  cases c with
  | sum => exact sum_mono h
  | max =>
    show vs.foldr Max.max 0 ≤ ws.foldr Max.max 0
    induction h with
    | nil => exact le_rfl
    | cons hv _ ih => exact max_le_max hv ih
  | times n => exact mul_le_mul_right (sum_mono h) _

theorem le_value (hc : c ≠ .times .zero) (hv : v ∈ vs) : v ≤ c.value vs := by
  cases c with
  | sum => exact le_sum_of_mem hv
  | max =>
    show v ≤ vs.foldr Max.max 0
    induction vs with
    | nil => exact absurd hv not_mem_nil
    | cons w vs ih =>
      rcases mem_cons.1 hv with rfl | hv
      · exact le_max_left _ _
      · exact (ih hv).trans (le_max_right _ _)
  | times n =>
    have hn : 1 ≤ n.value := by
      rw [Order.one_le_iff_ne_zero]
      intro hzero
      exact hc (congrArg Combinator.times (Count.value_injective hzero))
    calc v ≤ vs.sum := le_sum_of_mem hv
      _ = 1 * vs.sum := (one_mul _).symm
      _ ≤ n.value * vs.sum := mul_le_mul_left hn _

theorem saturated_values (hvalid : ∀ t ∈ parts, t.Valid) :
    Forall₂ (fun t v => t.get q = Count.saturate v) parts (parts.map fun t => (t.get q).value) := by
  refine forall₂_map_right_iff.2 (forall₂_same.2 fun t ht => ?_)
  exact (Count.saturate_value (valid_get (hvalid t ht) q)).symm

theorem le_value_combine (hc : c.Valid) (hvalid : ∀ t ∈ parts, t.Valid)
    (hparts : Forall₂ (fun v t => v ≤ (t.get q).value) vs parts) :
    c.value vs ≤ ((c.combine parts).get q).value := by
  rw [get_combine hc hvalid (saturated_values hvalid)]
  refine le_trans (c.value_mono ?_) (Count.le_value_saturate _)
  exact forall₂_map_right_iff.2 hparts

theorem le_value_foldl_sum (hvalid : ∀ t ∈ parts, t.Valid)
    (hparts : Forall₂ (fun v t => v ≤ (t.get q).value) vs parts) (hacc : acc.Valid) :
    (acc.get q).value + vs.sum ≤ ((parts.foldl Tally.sum acc).get q).value := by
  have hstart := (Count.saturate_value (valid_get hacc q)).symm
  rw [get_foldl_sum hvalid (saturated_values hvalid) hacc hstart]
  refine le_trans (add_le_add_right (sum_mono ?_) _) (Count.le_value_saturate _)
  exact forall₂_map_right_iff.2 hparts

end Combinator

end SecureTape
