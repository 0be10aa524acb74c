import Xv6.Lib.Update
import Xv6.Virtio.Basic

/-! # The descriptors of a request

A call of `virtio_disk_rw` has a chain of three descriptors from `alloc3_desc` to `free_chain`. What
holds of the memory shared with the device depends on where the calls are only through a `RwView`. -/

namespace Xv6

open Function

/-- What matters of where a call is. -/
inductive RwView (B : Type*)
  | out
  | calling (c : RwCall B)
  /-- The chain is allocated. -/
  | raw (c : RwCall B) (ch : Chain)
  /-- The chain is formatted. -/
  | built (c : RwCall B) (ch : Chain)
  /-- The chain has been made available. -/
  | posted (c : RwCall B) (ch : Chain)
  /-- The request is complete. -/
  | done (c : RwCall B) (ch : Chain)

namespace RwView

variable {B : Type*}

def call : RwView B → Option (RwCall B)
  | .out => none
  | .calling c | .raw c _ | .built c _ | .posted c _ | .done c _ => some c

def chain : RwView B → Option Chain
  | .out | .calling _ => none
  | .raw _ ch | .built _ ch | .posted _ ch | .done _ ch => some ch

/-- The call whose chain is formatted. -/
def formatted : RwView B → Option (RwCall B × Chain)
  | .built c ch | .posted c ch | .done c ch => some (c, ch)
  | _ => none

theorem of_formatted {v : RwView B} {c : RwCall B} {ch : Chain} (h : v.formatted = some (c, ch)) :
    v.call = some c ∧ v.chain = some ch := by
  cases v <;> cases h <;> exact ⟨rfl, rfl⟩

end RwView

def RwPc.view {B : Type*} : RwPc B → RwView B
  | .idle => .out
  | .acquire c | .alloc c | .asleepFree c => .calling c
  | .format c ch => .raw c ch
  | .ring c ch | .bump c ch => .built c ch
  | .wait c ch | .asleep c ch | .reacquire c ch => .posted c ch
  | .finish c ch => .done c ch

@[simp] theorem RwPc.view_wakeFree {B : Type*} (pc : RwPc B) : pc.wakeFree.view = pc.view := by
  cases pc <;> rfl

@[simp] theorem RwPc.view_wake {B : Type*} (pc : RwPc B) : pc.wake.view = pc.view := by
  cases pc <;> rfl

@[simp] theorem RwPc.view_wakeBuf {B : Type*} [DecidableEq B] (b : B) (pc : RwPc B) :
    (pc.wakeBuf b).view = pc.view := by
  cases pc with
  | asleep c ch =>
    unfold wakeBuf
    dsimp only
    split <;> rfl
  | _ => rfl

section Update

variable {P α β : Type*} [DecidableEq P]

/-- A projection of a function that was updated. -/
theorem proj_update (f : α → β) (V : P → α) (p : P) (w : α) :
    (fun q => f (update V p w q)) = update (fun q => f (V q)) p (f w) := by
  funext q
  rcases eq_or_ne q p with rfl | hne
  · simp
  · simp [hne]

theorem proj_update_same {f : α → β} {V : P → α} {p : P} {w : α} (h : f w = f (V p)) :
    (fun q => f (update V p w q)) = fun q => f (V q) := by
  rw [proj_update, h]
  exact update_eq_self p fun q => f (V q)

end Update

/-! ## Buffers and descriptors -/

section Groups

variable {P B : Type*} [DecidableEq P] [DecidableEq B]

/-- The buffers of the calls in progress. -/
structure Calls (held : B → Bool) (C : P → Option (RwCall B)) : Prop where
  held : ∀ p c, C p = some c → held c.b = true
  apart : ∀ p q c c', C p = some c → C q = some c' → c.b = c'.b → p = q

/-- The descriptors are partitioned into the free ones and the chains `K`. -/
structure Chains (free : ℕ → Bool) (K : P → Option Chain) : Prop where
  nodup : ∀ p ch, K p = some ch → ch.toList.Nodup
  taken : ∀ p ch, K p = some ch → ∀ i ∈ ch.toList, i < NUM ∧ free i = false
  disjoint : ∀ p q ch ch' i, K p = some ch → K q = some ch' → i ∈ ch.toList → i ∈ ch'.toList → p = q
  covered : ∀ i < NUM, free i = false → ∃ p ch, K p = some ch ∧ i ∈ ch.toList

variable {held : B → Bool} {C : P → Option (RwCall B)} {free : ℕ → Bool} {K : P → Option Chain}
  {p q : P} {c : RwCall B} {ch : Chain}

theorem of_update_none {α : Type*} {x : α} {f : P → Option α} (h : update f p none q = some x) :
    q ≠ p ∧ f q = some x :=
  (update_cases h).resolve_left nofun

theorem Calls.enter (h : Calls held C) (hp : C p = none) (hb : held c.b = false) :
    Calls (update held c.b true) (update C p (some c)) := by
  have hnew : ∀ q c', C q = some c' → c'.b ≠ c.b := fun q c' hq => ne_of_values (h.held q c' hq) hb nofun
  constructor
  case held =>
    intro q c' hc
    obtain ⟨-, ⟨⟩⟩ | ⟨-, hc⟩ := update_cases hc
    · rw [update_self]
    · rw [update_of_ne (hnew q c' hc)]
      exact h.held q c' hc
  case apart =>
    intro q q' c₁ c₂ h₁ h₂ heq
    obtain ⟨rfl, ⟨⟩⟩ | ⟨-, k₁⟩ := update_cases h₁ <;> obtain ⟨hq', ⟨⟩⟩ | ⟨-, k₂⟩ := update_cases h₂
    · exact hq'.symm
    · exact absurd heq.symm (hnew q' c₂ k₂)
    · exact absurd heq (hnew q c₁ k₁)
    · exact h.apart q q' c₁ c₂ k₁ k₂ heq

theorem Calls.leave (h : Calls held C) (hp : C p = some c) :
    Calls (update held c.b false) (update C p none) := by
  constructor
  case held =>
    intro q c' hc
    obtain ⟨hne, hc⟩ := of_update_none hc
    rw [update_of_ne fun heq => hne (h.apart q p c' c hc hp heq)]
    exact h.held q c' hc
  case apart =>
    intro q q' c₁ c₂ h₁ h₂ heq
    exact h.apart q q' c₁ c₂ (of_update_none h₁).2 (of_update_none h₂).2 heq

/-- `free` with the descriptors of a chain set to `v`. -/
def setFree (free : ℕ → Bool) (ch : Chain) (v : Bool) : ℕ → Bool :=
  fun i => if i ∈ ch.toList then v else free i

theorem Chains.alloc (h : Chains free K) (hp : K p = none) (hnodup : ch.toList.Nodup)
    (hfree : ∀ i ∈ ch.toList, i < NUM ∧ free i = true) :
    Chains (setFree free ch false) (update K p (some ch)) := by
  -- the new descriptors were free, so no other chain has them
  have hnew : ∀ q ch' i, K q = some ch' → i ∈ ch'.toList → i ∉ ch.toList := by
    intro q ch' i hq hi hmem
    have := (h.taken q ch' hq i hi).2
    rw [(hfree i hmem).2] at this
    cases this
  constructor
  case nodup =>
    intro q ch' hq
    obtain ⟨-, ⟨⟩⟩ | ⟨-, hq⟩ := update_cases hq
    · exact hnodup
    · exact h.nodup q ch' hq
  case taken =>
    intro q ch' hq i hi
    obtain ⟨-, ⟨⟩⟩ | ⟨-, hq⟩ := update_cases hq
    · exact ⟨(hfree i hi).1, if_pos hi⟩
    · obtain ⟨hlt, hf⟩ := h.taken q ch' hq i hi
      exact ⟨hlt, by rw [setFree, if_neg (hnew q ch' i hq hi), hf]⟩
  case disjoint =>
    intro q q' ch₁ ch₂ i h₁ h₂ hi₁ hi₂
    obtain ⟨rfl, ⟨⟩⟩ | ⟨-, k₁⟩ := update_cases h₁ <;> obtain ⟨hq', ⟨⟩⟩ | ⟨-, k₂⟩ := update_cases h₂
    · exact hq'.symm
    · exact absurd hi₁ (hnew q' ch₂ i k₂ hi₂)
    · exact absurd hi₂ (hnew q ch₁ i k₁ hi₁)
    · exact h.disjoint q q' ch₁ ch₂ i k₁ k₂ hi₁ hi₂
  case covered =>
    intro i hi hf
    by_cases hmem : i ∈ ch.toList
    · exact ⟨p, ch, update_self .., hmem⟩
    · rw [setFree, if_neg hmem] at hf
      obtain ⟨q, ch', hq, hi'⟩ := h.covered i hi hf
      exact ⟨q, ch', by rwa [update_of_ne (ne_of_values hq hp nofun)], hi'⟩

theorem Chains.release (h : Chains free K) (hp : K p = some ch) :
    Chains (setFree free ch true) (update K p none) := by
  constructor
  case nodup => exact fun q ch' hq => h.nodup q ch' (of_update_none hq).2
  case taken =>
    intro q ch' hq i hi
    obtain ⟨hne, hq⟩ := of_update_none hq
    obtain ⟨hlt, hf⟩ := h.taken q ch' hq i hi
    have hnot : i ∉ ch.toList := fun hmem => hne (h.disjoint q p ch' ch i hq hp hi hmem)
    exact ⟨hlt, by rw [setFree, if_neg hnot, hf]⟩
  case disjoint =>
    intro q q' ch₁ ch₂ i h₁ h₂
    exact h.disjoint q q' ch₁ ch₂ i (of_update_none h₁).2 (of_update_none h₂).2
  case covered =>
    intro i hi hf
    by_cases hmem : i ∈ ch.toList
    · rw [setFree, if_pos hmem] at hf
      cases hf
    · rw [setFree, if_neg hmem] at hf
      obtain ⟨q, ch', hq, hi'⟩ := h.covered i hi hf
      have hne : q ≠ p := by
        rintro rfl
        rw [hp] at hq
        cases hq
        exact hmem hi'
      exact ⟨q, ch', by rwa [update_of_ne hne], hi'⟩

omit [DecidableEq P] in
/-- Different calls have different heads. -/
theorem Chains.head_inj (h : Chains free K) {ch' : Chain} (hp : K p = some ch) (hq : K q = some ch')
    (heq : ch.i0 = ch'.i0) : p = q := by
  apply h.disjoint p q ch ch' ch.i0 hp hq
  · simp [Chain.toList]
  · simp [Chain.toList, heq]

omit [DecidableEq P] in
theorem Chains.head_lt (h : Chains free K) (hp : K p = some ch) : ch.i0 < NUM :=
  (h.taken p ch hp ch.i0 (by simp [Chain.toList])).1

/-- Distinct descriptors are at most `NUM`. -/
theorem length_lt_of_notMem {l : List ℕ} {i : ℕ} (hl : l.Nodup) (hlt : ∀ j ∈ l, j < NUM)
    (hi : i < NUM) (hnot : i ∉ l) : l.length < NUM := by
  have hsub : i :: l ⊆ List.range NUM := by
    intro j hj
    rw [List.mem_range]
    rcases List.mem_cons.mp hj with rfl | hj
    · exact hi
    · exact hlt j hj
  have hle := ((List.nodup_cons.mpr ⟨hnot, hl⟩).subperm hsub).length_le
  rw [List.length_range] at hle
  exact hle

end Groups

/-! ## Allocating and freeing descriptors -/

namespace VDisk

variable {B : Type*} {d d' : VDisk B} {i : ℕ} {ch : Chain}

/-- The rings are the same. -/
structure SameRings (d d' : VDisk B) : Prop where
  availRing : d'.availRing = d.availRing
  availIdx : d'.availIdx = d.availIdx
  usedRing : d'.usedRing = d.usedRing
  usedIdx : d'.usedIdx = d.usedIdx
  seenIdx : d'.seenIdx = d.seenIdx

/-- All is the same, up to the descriptors and which of them are free. -/
structure SameBut (d d' : VDisk B) : Prop extends SameRings d d' where
  info : d'.info = d.info
  ops : d'.ops = d.ops

theorem SameBut.refl (d : VDisk B) : SameBut d d := ⟨⟨rfl, rfl, rfl, rfl, rfl⟩, rfl, rfl⟩

theorem SameBut.trans {d'' : VDisk B} (h : SameBut d d') (h' : SameBut d' d'') : SameBut d d'' where
  availRing := h'.availRing.trans h.availRing
  availIdx := h'.availIdx.trans h.availIdx
  usedRing := h'.usedRing.trans h.usedRing
  usedIdx := h'.usedIdx.trans h.usedIdx
  seenIdx := h'.seenIdx.trans h.seenIdx
  info := h'.info.trans h.info
  ops := h'.ops.trans h.ops

theorem allocDesc_spec (h : d.allocDesc = some (i, d')) :
    i < NUM ∧ d.free i = true ∧ d'.free = update d.free i false ∧ d'.desc = d.desc ∧
      SameBut d d' := by
  unfold allocDesc at h
  split at h
  · cases h
  · rename_i j hj
    obtain ⟨rfl, rfl⟩ := Prod.mk.inj (Option.some.inj h)
    exact ⟨List.mem_range.mp (List.mem_of_find?_eq_some hj), List.find?_some hj, rfl, rfl,
      ⟨⟨rfl, rfl, rfl, rfl, rfl⟩, rfl, rfl⟩⟩

/-- The memory after `free_desc(i)`. -/
def freed (d : VDisk B) (i : ℕ) : VDisk B :=
  { d with
    desc := update d.desc i ⟨.null, 0, false, false, 0⟩
    free := update d.free i true }

theorem desc_freed {j : ℕ} (h : j ≠ i) : (d.freed i).desc j = d.desc j := update_of_ne h _ _

theorem freeDesc_eq (hi : i < NUM) (hf : d.free i = false) : d.freeDesc i = some (d.freed i) := by
  rw [freeDesc, if_neg (by omega), if_neg (by rw [hf]; decide), freed]

/-- A round of `free_chain`. -/
theorem freeChain_succ {fuel : ℕ} {x : Desc B} (hx : d.desc i = x) (hi : i < NUM)
    (hf : d.free i = false) : d.freeChain (fuel + 1) i =
      if x.flagNext then (d.freed i).freeChain fuel x.next else some (d.freed i) := by
  subst hx
  rw [freeChain, freeDesc_eq hi hf]

/-- `alloc3_desc` does not panic: it takes three free descriptors, or leaves all as they were but
clears some that are free. -/
theorem alloc3Desc_spec (d : VDisk B) : ∃ d' o, d.alloc3Desc = some (d', o) ∧ SameBut d d' ∧
    match o with
    | none => d'.free = d.free ∧ ∀ i, d.free i = false → d'.desc i = d.desc i
    | some ch => d'.free = setFree d.free ch false ∧ d'.desc = d.desc ∧ ch.toList.Nodup ∧
        ∀ i ∈ ch.toList, i < NUM ∧ d.free i = true := by
  unfold alloc3Desc
  cases h0 : d.allocDesc with
  | none => exact ⟨d, none, rfl, .refl d, rfl, fun _ _ => rfl⟩
  | some x =>
    obtain ⟨i0, d0⟩ := x
    obtain ⟨hi0, hf0, hd0, hdesc0, hs0⟩ := allocDesc_spec h0
    dsimp only
    have htaken0 : d0.free i0 = false := by rw [hd0, update_self]
    cases h1 : d0.allocDesc with
    | none =>
      -- only one was free
      dsimp only
      rw [freeDesc_eq hi0 htaken0]
      refine ⟨_, none, rfl, hs0.trans ⟨⟨rfl, rfl, rfl, rfl, rfl⟩, rfl, rfl⟩, ?_, fun i hi => ?_⟩
      · show update d0.free i0 true = d.free
        rw [hd0, update_idem, ← hf0, update_eq_self]
      · show update d0.desc i0 _ i = d.desc i
        rw [update_of_ne (ne_of_values hi hf0 nofun), hdesc0]
    | some x =>
      obtain ⟨i1, d1⟩ := x
      obtain ⟨hi1, hf1, hd1, hdesc1, hs1⟩ := allocDesc_spec h1
      dsimp only
      have hne1 : i1 ≠ i0 := ne_of_values hf1 htaken0 nofun
      have hfree1 : d.free i1 = true := by
        rwa [hd0, update_of_ne hne1] at hf1
      have htaken1 : d1.free i0 = false := by
        rw [hd1, update_of_ne hne1.symm, htaken0]
      cases h2 : d1.allocDesc with
      | none =>
        -- only two were free
        dsimp only
        have hsecond : (update d1.free i0 true) i1 = false := by
          rw [update_of_ne hne1, hd1, update_self]
        rw [freeDesc_eq hi0 htaken1, Option.bind_some, freeDesc_eq hi1 hsecond]
        refine ⟨_, none, rfl, (hs0.trans hs1).trans ⟨⟨rfl, rfl, rfl, rfl, rfl⟩, rfl, rfl⟩, ?_,
          fun i hi => ?_⟩
        · show update (update d1.free i0 true) i1 true = d.free
          funext i
          rcases eq_or_ne i i1 with rfl | hne
          · rw [update_self, hfree1]
          · rw [update_of_ne hne]
            rcases eq_or_ne i i0 with rfl | hne'
            · rw [update_self, hf0]
            · rw [update_of_ne hne', hd1, update_of_ne hne, hd0,
                update_of_ne hne']
        · show update (update d1.desc i0 _) i1 _ i = d.desc i
          rw [update_of_ne (ne_of_values hi hfree1 nofun), update_of_ne (ne_of_values hi hf0 nofun), hdesc1, hdesc0]
      | some x =>
        obtain ⟨i2, d2⟩ := x
        obtain ⟨hi2, hf2, hd2, hdesc2, hs2⟩ := allocDesc_spec h2
        have hne2 : i2 ≠ i1 := ne_of_values (w := false) hf2 (by rw [hd1, update_self]) nofun
        have hne2' : i2 ≠ i0 := ne_of_values hf2 htaken1 nofun
        have hfree2 : d.free i2 = true := by
          rwa [hd1, update_of_ne hne2, hd0, update_of_ne hne2'] at hf2
        refine ⟨d2, some ⟨i0, i1, i2⟩, rfl, (hs0.trans hs1).trans hs2, ?_, ?_, ?_, ?_⟩
        · funext i
          rw [hd2, hd1, hd0]
          simp only [setFree, Chain.toList, List.mem_cons, List.not_mem_nil, or_false,
            update_apply]
          split_ifs <;> simp_all
        · rw [hdesc2, hdesc1, hdesc0]
        · simp [Chain.toList, hne1.symm, hne2.symm, hne2'.symm]
        · intro i hi
          simp only [Chain.toList, List.mem_cons, List.not_mem_nil, or_false] at hi
          obtain rfl | rfl | rfl := hi
          · exact ⟨hi0, hf0⟩
          · exact ⟨hi1, hfree1⟩
          · exact ⟨hi2, hfree2⟩

/-- The memory of the chain of a request. -/
structure Formatted (d : VDisk B) (c : RwCall B) (ch : Chain) : Prop where
  desc0 : d.desc ch.i0 = ⟨.op ch.i0, 16, true, false, ch.i1⟩
  desc1 : d.desc ch.i1 = ⟨.data c.b, 1024, true, !c.write, ch.i2⟩
  desc2 : d.desc ch.i2 = ⟨.status ch.i0, 1, false, true, 0⟩
  ops : d.ops ch.i0 = ⟨c.write, c.sector⟩
  info : (d.info ch.i0).b = some c.b

/-- What is outside a chain does not matter to it. -/
theorem Formatted.of_eq {c : RwCall B} (h : d.Formatted c ch)
    (hdesc : ∀ i ∈ ch.toList, d'.desc i = d.desc i) (hops : d'.ops ch.i0 = d.ops ch.i0)
    (hinfo : (d'.info ch.i0).b = (d.info ch.i0).b) : d'.Formatted c ch where
  desc0 := (hdesc _ (by simp [Chain.toList])).trans h.desc0
  desc1 := (hdesc _ (by simp [Chain.toList])).trans h.desc1
  desc2 := (hdesc _ (by simp [Chain.toList])).trans h.desc2
  ops := hops.trans h.ops
  info := hinfo.trans h.info

theorem format_formatted {c : RwCall B} (hnodup : ch.toList.Nodup) :
    (d.format ch c.b c.write c.sector).Formatted c ch := by
  obtain ⟨i0, i1, i2⟩ := ch
  simp only [Chain.toList, List.nodup_cons, List.mem_cons, List.not_mem_nil, or_false, not_or,
    List.nodup_nil, not_false_eq_true, and_true] at hnodup
  obtain ⟨⟨h01, h02⟩, h12⟩ := hnodup
  constructor <;> simp [format, h01, h02, h12]

theorem desc_format {b : B} {write : Bool} {sector i : ℕ} (hi : i ∉ ch.toList) :
    (d.format ch b write sector).desc i = d.desc i := by
  simp only [Chain.toList, List.mem_cons, List.not_mem_nil, or_false, not_or] at hi
  simp [format, hi]

/-- The device does what the chain says. -/
theorem serve_eq {c : RwCall B} (h : d.Formatted c ch) :
    d.serve ch.i0 = (some (c.b, ⟨c.write, c.sector⟩),
      { d with info := update d.info ch.i0 { d.info ch.i0 with status := 0 } }) := by
  unfold serve
  simp only [h.desc0, h.desc1, h.desc2, h.ops]

/-- **`free_chain`** of a formatted chain frees its three descriptors and does not panic. -/
theorem freeChain_spec {c : RwCall B} {d₀ : VDisk B} (h : d₀.Formatted c ch)
    (heq : d.desc = d₀.desc) (hnodup : ch.toList.Nodup)
    (htaken : ∀ i ∈ ch.toList, i < NUM ∧ d.free i = false) :
    ∃ d', d.freeChain (NUM + 1) ch.i0 = some d' ∧ d'.free = setFree d.free ch true ∧ SameBut d d' ∧
      ∀ i, i ∉ ch.toList → d'.desc i = d.desc i := by
  obtain ⟨i0, i1, i2⟩ := ch
  simp only [Chain.toList, List.nodup_cons, List.mem_cons, List.not_mem_nil, or_false, not_or,
    List.nodup_nil, not_false_eq_true, and_true] at hnodup htaken
  obtain ⟨⟨h01, h02⟩, h12⟩ := hnodup
  obtain ⟨hlt0, hf0⟩ := htaken i0 (.inl rfl)
  obtain ⟨hlt1, hf1⟩ := htaken i1 (.inr (.inl rfl))
  obtain ⟨hlt2, hf2⟩ := htaken i2 (.inr (.inr rfl))
  have hd0 : d.desc i0 = ⟨.op i0, 16, true, false, i1⟩ := heq ▸ h.desc0
  have hd1 : d.desc i1 = ⟨.data c.b, 1024, true, !c.write, i2⟩ := heq ▸ h.desc1
  have hd2 : d.desc i2 = ⟨.status i0, 1, false, true, 0⟩ := heq ▸ h.desc2
  have hf1' : update d.free i0 true i1 = false := by
    rw [update_of_ne (Ne.symm h01), hf1]
  have hf2' : update (update d.free i0 true) i1 true i2 = false := by
    rw [update_of_ne (Ne.symm h12), update_of_ne (Ne.symm h02), hf2]
  have hd1' : (d.freed i0).desc i1 = ⟨.data c.b, 1024, true, !c.write, i2⟩ := by
    rw [desc_freed (Ne.symm h01), hd1]
  have hd2' : ((d.freed i0).freed i1).desc i2 = ⟨.status i0, 1, false, true, 0⟩ := by
    rw [desc_freed (Ne.symm h12), desc_freed (Ne.symm h02), hd2]
  refine ⟨((d.freed i0).freed i1).freed i2, ?_, ?_, ?_, ?_⟩
  · calc d.freeChain (NUM + 1) i0
        = (d.freed i0).freeChain NUM i1 := freeChain_succ hd0 hlt0 hf0
      _ = ((d.freed i0).freed i1).freeChain 7 i2 := freeChain_succ hd1' hlt1 hf1'
      _ = some (((d.freed i0).freed i1).freed i2) := freeChain_succ hd2' hlt2 hf2'
  · funext i
    simp only [setFree, freed, Chain.toList, List.mem_cons, List.not_mem_nil, or_false,
      update_apply]
    split_ifs <;> simp_all
  · exact ⟨⟨rfl, rfl, rfl, rfl, rfl⟩, rfl, rfl⟩
  · intro i hi
    simp only [Chain.toList, List.mem_cons, List.not_mem_nil, or_false, not_or] at hi
    rw [desc_freed hi.2.2, desc_freed hi.2.1, desc_freed hi.1]

end VDisk

end Xv6
