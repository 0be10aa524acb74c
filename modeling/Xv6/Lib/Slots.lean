import Mathlib

/-! # Maps kept in slots

A finite map may be kept in a list of slots, each free or with a key. A new entry goes to the first free
slot, to a new one at the end if there is none, and removing an entry frees its slot. As long as keys
are distinct, what is found under a key does not depend on the slots it went through. -/

namespace Slots

variable {α κ : Type*} (key : α → Option κ)

/-- The keys in use. -/
def keys (es : List α) : List κ := es.filterMap key

/-- The first entry with the key. -/
def lookup [DecidableEq κ] (es : List α) (k : κ) : Option α := es.find? fun a => key a = some k

/-- The entry `a` goes to the first free slot. -/
def put (a : α) : List α → List α
  | [] => [a]
  | b :: es => if (key b).isNone then a :: es else b :: put a es

variable {key} {a b : α} {k k' : κ} {es : List α} {i : ℕ}

/-! ## The keys -/

theorem keys_cons_of_none (h : key a = none) (es : List α) : keys key (a :: es) = keys key es :=
  List.filterMap_cons_none h

theorem keys_cons_of_some (h : key a = some k) (es : List α) :
    keys key (a :: es) = k :: keys key es :=
  List.filterMap_cons_some h

theorem put_eq (a : α) (es : List α) :
    put key a es = if es.findIdx (fun b => (key b).isNone) < es.length then
      es.set (es.findIdx fun b => (key b).isNone) a else es ++ [a] := by
  induction es with
  | nil => rfl
  | cons b es ih =>
    rw [put, List.findIdx_cons]
    cases hb : (key b).isNone with
    | true => simp
    | false =>
      simp only [Bool.false_eq_true, if_false, cond_false, List.length_cons, Nat.add_lt_add_iff_right,
        List.set_cons_succ, List.cons_append, ih]
      split <;> rfl

theorem keys_put (ha : key a = some k) : (keys key (put key a es)).Perm (k :: keys key es) := by
  induction es with
  | nil => rw [put, keys_cons_of_some ha]
  | cons b es ih =>
    rw [put]
    cases hb : key b with
    | none => rw [Option.isNone_none, if_pos rfl, keys_cons_of_some ha, keys_cons_of_none hb]
    | some kb =>
      rw [Option.isNone_some, if_neg Bool.false_ne_true, keys_cons_of_some hb, keys_cons_of_some hb]
      exact (ih.cons kb).trans (.swap k kb _)

theorem nodup_put (ha : key a = some k) (hk : k ∉ keys key es) (h : (keys key es).Nodup) :
    (keys key (put key a es)).Nodup :=
  (keys_put ha).nodup_iff.mpr (List.nodup_cons.mpr ⟨hk, h⟩)

theorem keys_set_sublist (hb : key b = none) (es : List α) (i : ℕ) :
    (keys key (es.set i b)).Sublist (keys key es) := by
  induction es generalizing i with
  | nil => exact .slnil
  | cons a es ih =>
    cases i with
    | zero =>
      rw [List.set_cons_zero, keys_cons_of_none hb]
      exact (List.sublist_cons_self a es).filterMap key
    | succ i =>
      rw [List.set_cons_succ]
      cases ha : key a with
      | none => rw [keys_cons_of_none ha, keys_cons_of_none ha]; exact ih i
      | some k => rw [keys_cons_of_some ha, keys_cons_of_some ha]; exact (ih i).cons_cons k

/-- No two slots have the same key. -/
theorem index_inj {j : ℕ} (h : (keys key es).Nodup) (hi : es[i]? = some a) (hj : es[j]? = some b)
    (ha : key a = some k) (hb : key b = some k) : i = j := by
  have hmem : ∀ {es : List α} {i : ℕ} {a : α}, es[i]? = some a → key a = some k → k ∈ keys key es :=
    fun hi ha => List.mem_filterMap.mpr ⟨_, List.mem_of_getElem? hi, ha⟩
  induction es generalizing i j with
  | nil => cases hi
  | cons c es ih =>
    have htail : (keys key es).Nodup := h.sublist ((List.sublist_cons_self c es).filterMap key)
    match i, j with
    | 0, 0 => rfl
    | 0, j + 1 =>
      obtain rfl : c = a := Option.some.inj hi
      rw [keys_cons_of_some ha, List.nodup_cons] at h
      rw [List.getElem?_cons_succ] at hj
      exact absurd (hmem hj hb) h.1
    | i + 1, 0 =>
      obtain rfl : c = b := Option.some.inj hj
      rw [keys_cons_of_some hb, List.nodup_cons] at h
      rw [List.getElem?_cons_succ] at hi
      exact absurd (hmem hi ha) h.1
    | i + 1, j + 1 => rw [ih htail hi hj]

/-! ## What is found -/

variable [DecidableEq κ]

theorem lookup_cons (a : α) (es : List α) (k : κ) :
    lookup key (a :: es) k = if key a = some k then some a else lookup key es k := by
  rw [lookup, List.find?_cons]
  by_cases h : key a = some k
  · simp [h]
  · simp [h, lookup]

theorem lookup_eq_none : lookup key es k = none ↔ k ∉ keys key es := by
  simp only [lookup, keys, List.find?_eq_none, List.mem_filterMap, decide_eq_true_eq, not_exists,
    not_and]

theorem lookup_put (ha : key a = some k) (hk : k ∉ keys key es) (k' : κ) :
    lookup key (put key a es) k' = if k' = k then some a else lookup key es k' := by
  induction es with
  | nil => simp only [put, lookup_cons, ha, Option.some.injEq, @eq_comm _ k k']
  | cons b es ih =>
    rw [put]
    cases hb : key b with
    | none =>
      simp only [Option.isNone_none, if_true, lookup_cons, ha, hb, Option.some.injEq,
        @eq_comm _ k k', reduceCtorEq, if_false]
    | some kb =>
      rw [keys_cons_of_some hb, List.mem_cons, not_or] at hk
      simp only [Option.isNone_some, Bool.false_eq_true, if_false, lookup_cons, hb,
        Option.some.injEq, ih hk.2]
      by_cases h : kb = k'
      · rw [if_pos h, if_pos h, if_neg fun hc => hk.1 (hc.symm.trans h.symm)]
      · rw [if_neg h, if_neg h]

theorem lookup_set (hb : key b = none) (hi : es[i]? = some a) (ha : key a = some k)
    (h : (keys key es).Nodup) (k' : κ) :
    lookup key (es.set i b) k' = if k' = k then none else lookup key es k' := by
  induction es generalizing i with
  | nil => cases hi
  | cons c es ih =>
    cases i with
    | zero =>
      obtain rfl : c = a := Option.some.inj hi
      rw [keys_cons_of_some ha, List.nodup_cons] at h
      simp only [List.set_cons_zero, lookup_cons, hb, ha, reduceCtorEq, if_false, Option.some.injEq,
        @eq_comm _ k k']
      by_cases hk : k' = k
      · rw [if_pos hk, hk, lookup_eq_none.mpr h.1]
      · rw [if_neg hk, if_neg hk]
    | succ i =>
      rw [List.getElem?_cons_succ] at hi
      have hmem : k ∈ keys key es := List.mem_filterMap.mpr ⟨a, List.mem_of_getElem? hi, ha⟩
      rw [List.set_cons_succ, lookup_cons, lookup_cons]
      cases hc : key c with
      | none =>
        rw [keys_cons_of_none hc] at h
        simp only [reduceCtorEq, if_false, ih hi h]
      | some kc =>
        rw [keys_cons_of_some hc, List.nodup_cons] at h
        rw [ih hi h.2]
        by_cases hk : some kc = some k'
        · have hne : k' ≠ k := by
            rintro rfl
            exact h.1 (Option.some.inj hk ▸ hmem)
          rw [if_pos hk, if_pos hk, if_neg hne]
        · rw [if_neg hk, if_neg hk]

end Slots
