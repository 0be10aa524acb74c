import Xv6.Itable.Steps

/-! # The protocol of the inode table

The reference count of an entry is the number of references that processes own, and who holds its
sleep-lock owns one. So an entry with one reference is not locked by anybody but its owner, and
`acquiresleep` in `iput` does not wait. A copy differs from the inode on disk only under the sleep-lock:
`ialloc` writes free inodes, and the inode of a valid copy is not free, except between the last `iupdate`
of `iput` and the reset of `valid`. -/

namespace Xv6

open Function

namespace InodeTable

open Tokens

variable {P : Type*} {σ τ : InodeTable P} {p q : P} {ip jp : Fin NINODE} {own : P → Fin NINODE → ℕ}
  {D : ℕ × ℕ → Dinode}

/-! ## References -/

section Refs

variable [Fintype P]

/-- The invariant of references and sleep-locks. -/
structure Owned (σ : InodeTable P) : Prop where
  ref_eq : ∀ ip, (σ.entry ip).ref = refs σ.own ip
  lock_own : ∀ p ip, (σ.entry ip).lock = some p → 0 < σ.own p ip
  pc_lock : ∀ p ip, (σ.pc p).locked = some ip → (σ.entry ip).lock = some p
  dropping : ∀ p ip, σ.pc p = .dropping ip → 0 < σ.own p ip ∧ (σ.entry ip).lock ≠ some p

theorem Owned.ref_pos (h : σ.Owned) (hp : 0 < σ.own p ip) : 0 < (σ.entry ip).ref := by
  rw [h.ref_eq]
  exact lt_of_lt_of_le hp (own_le_refs σ.own p ip)

end Refs

variable [DecidableEq P]

theorem update_idle (h : σ.pc p = .idle) : update σ.pc p .idle = σ.pc := by
  rw [← h, update_eq_self]

section Refs

variable [Fintype P]

namespace Owned

/-- **`acquiresleep` in `iput` does not wait.** -/
theorem lock_eq_none (h : σ.Owned) (hspare : σ.Spare p ip) (hone : (σ.entry ip).ref = 1) :
    (σ.entry ip).lock = none := by
  have href := h.ref_eq ip
  cases hlock : (σ.entry ip).lock with
  | none => rfl
  | some q =>
    by_cases hqp : q = p
    · -- two references are its own
      subst hqp
      have := own_le_refs σ.own q ip
      have := hspare.2 hlock
      omega
    · have := two_le_refs hqp (h.lock_own q ip hlock) hspare.1
      omega

/-- **What a step may do**: process `p` changes entry `ip` and its own references to it, and takes from
nobody else what they own or hold. -/
theorem change (h : σ.Owned) {e : InodeEntry P} {own' : P → Fin NINODE → ℕ} {c : InodePc}
    (href : e.ref = refs own' ip) (hlock : ∀ q, e.lock = some q → 0 < own' q ip)
    (hkeep : ∀ q, q ≠ p → (e.lock = some q ↔ (σ.entry ip).lock = some q))
    (hc : ∀ jp, c.locked = some jp → (update σ.entry ip e jp).lock = some p)
    (hdrop : ∀ jp, c = .dropping jp → jp = ip ∧ 0 < own' p ip ∧ e.lock ≠ some p)
    (hrefs : ∀ jp, jp ≠ ip → refs own' jp = refs σ.own jp := by exact fun _ _ => rfl)
    (hown : ∀ q jp, q ≠ p ∨ jp ≠ ip → σ.own q jp ≤ own' q jp := by exact fun _ _ _ => le_rfl) :
    Owned ⟨update σ.entry ip e, D, own', update σ.pc p c⟩ := by
  constructor <;> dsimp only
  case ref_eq =>
    refine (forall_update_iff σ.entry fun jp e => e.ref = refs own' jp).mpr ⟨href, fun jp hj => ?_⟩
    rw [hrefs jp hj, h.ref_eq]
  case lock_own =>
    exact fun q => (forall_update_iff σ.entry fun jp e => e.lock = some q → 0 < own' q jp).mpr
      ⟨hlock q, fun jp hj hq => (h.lock_own q jp hq).trans_le (hown q jp (.inr hj))⟩
  case pc_lock =>
    refine (forall_update_iff σ.pc fun q c => ∀ jp, c.locked = some jp →
      (update σ.entry ip e jp).lock = some q).mpr ⟨hc, fun q hqp => ?_⟩
    exact (forall_update_iff σ.entry fun jp e => (σ.pc q).locked = some jp → e.lock = some q).mpr
      ⟨fun hq => (hkeep q hqp).mpr (h.pc_lock q ip hq), fun jp _ => h.pc_lock q jp⟩
  case dropping =>
    intro q jp hq
    obtain ⟨rfl, hjp⟩ | ⟨hqp, hq⟩ := update_cases hq
    · obtain ⟨rfl, hpos, hne⟩ := hdrop jp hjp
      rw [update_self]
      exact ⟨hpos, hne⟩
    · obtain ⟨hpos, hne⟩ := h.dropping q jp hq
      refine ⟨hpos.trans_le (hown q jp (.inl hqp)), ?_⟩
      rcases eq_or_ne jp ip with rfl | hj
      · rw [update_self]
        exact fun hq => hne ((hkeep q hqp).mp hq)
      · rwa [update_of_ne hj]

/-- A process between calls gets a reference. -/
theorem gain (h : σ.Owned) (hidle : σ.pc p = .idle) {e : InodeEntry P}
    (href : e.ref = (σ.entry ip).ref + 1) (hlock : e.lock = (σ.entry ip).lock) :
    Owned { σ with entry := update σ.entry ip e, own := Tokens.gain σ.own p ip } := by
  rw [← update_idle hidle]
  refine h.change ?_ (fun q hq => (h.lock_own q ip (hlock ▸ hq)).trans_le (le_gain ..))
    (fun q _ => by rw [hlock]) nofun nofun (fun jp hj => ?_) fun q jp _ => le_gain σ.own p q ip jp
  · rw [href, h.ref_eq, refs_gain, if_pos rfl]
  · rw [refs_gain, if_neg hj, Nat.add_zero]

/-- Who holds the sleep-lock still owns a reference after one was spared. -/
theorem lose_pos (h : σ.Owned) (hspare : σ.Spare p ip) (hq : (σ.entry ip).lock = some q) :
    0 < Tokens.lose σ.own p ip q ip := by
  have hpos := h.lock_own q ip hq
  rw [lose_apply]
  split
  · rename_i hc
    obtain ⟨rfl, -⟩ := hc
    have := hspare.2 hq
    omega
  · exact hpos

/-- A process gives up a reference it can spare. -/
theorem lose (h : σ.Owned) (hspare : σ.Spare p ip) {e : InodeEntry P}
    (href : e.ref = (σ.entry ip).ref - 1) (hlock : e.lock = (σ.entry ip).lock) :
    Owned { σ with
      entry := update σ.entry ip e
      own := Tokens.lose σ.own p ip
      pc := update σ.pc p .idle } := by
  refine h.change ?_ (fun q hq => h.lose_pos hspare (hlock ▸ hq)) (fun q _ => by rw [hlock]) nofun
    nofun (fun jp hj => ?_) fun q jp hne => ?_
  · have hsum := refs_lose hspare.1 ip
    rw [if_pos rfl, ← h.ref_eq] at hsum
    omega
  · have hsum := refs_lose hspare.1 jp
    rwa [if_neg hj, Nat.add_zero] at hsum
  · rw [lose_of_ne hne]

/-- A process between calls hands on a reference it can spare. -/
theorem pass (h : σ.Owned) (hspare : σ.Spare p ip) (hidle : σ.pc p = .idle) (q : P) :
    Owned { σ with own := Tokens.gain (Tokens.lose σ.own p ip) q ip } := by
  have hrefs : ∀ jp, refs (Tokens.gain (Tokens.lose σ.own p ip) q ip) jp = refs σ.own jp := by
    intro jp
    rw [refs_gain, refs_lose hspare.1]
  rw [← update_idle hidle, ← update_eq_self ip σ.entry]
  refine h.change ?_ (fun r hr => (h.lose_pos hspare hr).trans_le (le_gain ..)) (fun _ _ => Iff.rfl)
    nofun nofun (fun jp _ => hrefs jp) fun r jp hne => ?_
  · rw [hrefs, h.ref_eq]
  · have hsame : Tokens.lose σ.own p ip r jp = σ.own r jp := lose_of_ne hne
    rw [← hsame]
    exact le_gain ..

/-- A process takes the sleep-lock of an inode it has a reference to. -/
theorem take (h : σ.Owned) (hown : 0 < σ.own p ip) (hfree : (σ.entry ip).lock = none) {e : InodeEntry P}
    {c : InodePc} (href : e.ref = (σ.entry ip).ref) (hlock : e.lock = some p) (hc : c.locked = some ip) :
    Owned { σ with entry := update σ.entry ip e, pc := update σ.pc p c } := by
  refine h.change (by rw [href, h.ref_eq]) (fun q hq => ?_) (fun q hqp => ?_) (fun jp hjp => ?_) ?_
  · rw [hlock, Option.some.injEq] at hq
    exact hq ▸ hown
  · rw [hlock, hfree]
    exact iff_of_false (fun hq => hqp (Option.some.inj hq).symm) nofun
  · rw [hc, Option.some.injEq] at hjp
    rw [← hjp, update_self, hlock]
  · rintro jp rfl
    cases hc

/-- A process goes on with the sleep-locks it has. -/
theorem move (h : σ.Owned) {e : InodeEntry P} {c : InodePc} (href : e.ref = (σ.entry ip).ref)
    (hlock : e.lock = (σ.entry ip).lock) (hc : ∀ jp, c.locked = some jp → (σ.entry jp).lock = some p)
    (hdrop : ∀ jp, c ≠ .dropping jp := by nofun) :
    Owned ⟨update σ.entry ip e, D, σ.own, update σ.pc p c⟩ := by
  refine h.change (by rw [href, h.ref_eq]) (fun q hq => h.lock_own q ip (hlock ▸ hq))
    (fun q _ => by rw [hlock]) ?_ fun jp hjp => absurd hjp (hdrop jp)
  refine (forall_update_iff σ.entry fun jp e => c.locked = some jp → e.lock = some p).mpr
    ⟨?_, fun jp _ => hc jp⟩
  rw [hlock]
  exact hc ip

theorem movePc (h : σ.Owned) {c : InodePc}
    (hc : ∀ jp, c.locked = some jp → (σ.entry jp).lock = some p := by nofun)
    (hdrop : ∀ jp, c ≠ .dropping jp := by nofun) : Owned { σ with pc := update σ.pc p c } := by
  rw [← update_eq_self 0 σ.entry]
  exact h.move rfl rfl hc hdrop

/-- A process releases a sleep-lock. -/
theorem release (h : σ.Owned) (hheld : (σ.entry ip).lock = some p) {e : InodeEntry P} {c : InodePc}
    (href : e.ref = (σ.entry ip).ref) (hlock : e.lock = none) (hc : c = .idle ∨ c = .dropping ip) :
    Owned { σ with entry := update σ.entry ip e, pc := update σ.pc p c } := by
  refine h.change (by rw [href, h.ref_eq]) ?_ (fun q hqp => ?_) ?_ fun jp hjp => ?_
  · rw [hlock]
    nofun
  · rw [hlock, hheld]
    exact iff_of_false nofun fun hq => hqp (Option.some.inj hq).symm
  · rcases hc with rfl | rfl <;> nofun
  · rcases hc with rfl | rfl <;> cases hjp
    exact ⟨rfl, h.lock_own p ip hheld, by rw [hlock]; nofun⟩

end Owned

end Refs

/-! ## Copies -/

/-- A valid copy is that of an allocated inode, and as on disk if it is clean. -/
def Settled (e : InodeEntry P) (d : Dinode) : Prop :=
  e.valid = true → e.copy.type ≠ 0 ∧ d.type ≠ 0 ∧ (e.dirty = false → e.copy = d)

/-- No process is past the point in `iput` where the inode is free on disk, or has found it free in
`ilock`. -/
def Quiet (pc : P → InodePc) (ip : Fin NINODE) : Prop := ∀ p, pc p ≠ .freed ip ∧ pc p ≠ .noType ip

/-- The invariant of the copies. -/
structure Synced (σ : InodeTable P) : Prop where
  inj : ∀ ip jp, 0 < (σ.entry ip).ref → 0 < (σ.entry jp).ref →
    (σ.entry ip).key = (σ.entry jp).key → ip = jp
  clean : ∀ ip, (σ.entry ip).lock = none → (σ.entry ip).dirty = false
  copy : ∀ ip, 0 < (σ.entry ip).ref → Quiet σ.pc ip →
    Settled (σ.entry ip) (σ.dinode (σ.entry ip).key)

omit [DecidableEq P] in
theorem quietAt {c : InodePc} (hpc : σ.pc p = c)
    (hc : ∀ jp, c ≠ .freed jp ∧ c ≠ .noType jp := by exact fun _ => ⟨nofun, nofun⟩) :
    ∀ jp, σ.pc p ≠ .freed jp ∧ σ.pc p ≠ .noType jp :=
  hpc ▸ hc

theorem quiet_of_update {c : InodePc} (hp : σ.pc p ≠ .freed jp ∧ σ.pc p ≠ .noType jp)
    (h : Quiet (update σ.pc p c) jp) : Quiet σ.pc jp := by
  intro q
  by_cases hq : q = p
  · exact hq ▸ hp
  · have := h q
    rwa [update_of_ne hq] at this

namespace Synced

omit [DecidableEq P] in
/-- One entry changes, and nothing of the others on disk. -/
theorem change (h : σ.Synced) {e : InodeEntry P} {pc : P → InodePc}
    (hkey : ∀ jp, jp ≠ ip → 0 < (σ.entry jp).ref → (σ.entry jp).key ≠ e.key)
    (hdisk : ∀ jp, jp ≠ ip → 0 < (σ.entry jp).ref → D (σ.entry jp).key = σ.dinode (σ.entry jp).key)
    (hclean : e.lock = none → e.dirty = false) (hquiet : ∀ jp, jp ≠ ip → Quiet pc jp → Quiet σ.pc jp)
    (hat : Quiet pc ip → Settled e (D e.key)) :
    Synced ⟨update σ.entry ip e, D, own, pc⟩ := by
  constructor <;> dsimp only
  case inj =>
    intro jp kp hj hk heq
    by_cases hjp : jp = ip <;> by_cases hkp : kp = ip
    · rw [hjp, hkp]
    · rw [hjp, update_self, update_of_ne hkp] at heq
      rw [update_of_ne hkp] at hk
      exact absurd heq.symm (hkey kp hkp hk)
    · rw [hkp, update_self, update_of_ne hjp] at heq
      rw [update_of_ne hjp] at hj
      exact absurd heq (hkey jp hjp hj)
    · rw [update_of_ne hjp, update_of_ne hkp] at heq
      rw [update_of_ne hjp] at hj
      rw [update_of_ne hkp] at hk
      exact h.inj jp kp hj hk heq
  case clean =>
    exact (forall_update_iff σ.entry fun _ e => e.lock = none → e.dirty = false).mpr
      ⟨hclean, fun jp _ => h.clean jp⟩
  case copy =>
    refine (forall_update_iff σ.entry fun jp e => 0 < e.ref → Quiet pc jp → Settled e (D e.key)).mpr
      ⟨fun _ => hat, fun jp hjp hj hq => ?_⟩
    rw [hdisk jp hjp hj]
    exact h.copy jp hj (hquiet jp hjp hq)

omit [DecidableEq P] in
/-- An entry in use changes, but not its inode number. -/
theorem changeAt (h : σ.Synced) {e : InodeEntry P} {pc : P → InodePc}
    (hpos : 0 < (σ.entry ip).ref) (hdisk : ∀ k, k ≠ (σ.entry ip).key → D k = σ.dinode k)
    (hclean : e.lock = none → e.dirty = false) (hquiet : ∀ jp, jp ≠ ip → Quiet pc jp → Quiet σ.pc jp)
    (hat : Quiet pc ip → Settled e (D (σ.entry ip).key))
    (hkey : e.key = (σ.entry ip).key := by rfl) :
    Synced ⟨update σ.entry ip e, D, own, pc⟩ := by
  have hne : ∀ jp, jp ≠ ip → 0 < (σ.entry jp).ref → (σ.entry jp).key ≠ (σ.entry ip).key :=
    fun jp hj hjp heq => hj (h.inj jp ip hjp hpos heq)
  rw [← hkey] at hne hat
  exact h.change hne (fun jp hj hjp => hdisk _ (hkey ▸ hne jp hj hjp)) hclean hquiet hat

/-- Nothing changes but reference counts, owners and locks. -/
theorem keep (h : σ.Synced) {e : InodeEntry P} {c : InodePc} (hpos : 0 < (σ.entry ip).ref)
    (hclean : e.lock = none → e.dirty = false) (hp : ∀ jp, σ.pc p ≠ .freed jp ∧ σ.pc p ≠ .noType jp)
    (hkey : e.key = (σ.entry ip).key := by rfl) (hvalid : e.valid = (σ.entry ip).valid := by rfl)
    (hdirty : e.dirty = (σ.entry ip).dirty := by rfl) (hcopy : e.copy = (σ.entry ip).copy := by rfl) :
    Synced ⟨update σ.entry ip e, σ.dinode, own, update σ.pc p c⟩ := by
  refine h.changeAt hpos (fun _ _ => rfl) hclean (fun jp _ => quiet_of_update (hp jp)) (fun hq => ?_)
    hkey
  rw [Settled, hvalid, hdirty, hcopy]
  exact h.copy ip hpos (quiet_of_update (hp ip) hq)

theorem movePc (h : σ.Synced) {c : InodePc} (hp : ∀ jp, σ.pc p ≠ .freed jp ∧ σ.pc p ≠ .noType jp) :
    Synced { σ with pc := update σ.pc p c } :=
  ⟨h.inj, h.clean, fun ip hpos hq => h.copy ip hpos (quiet_of_update (hp ip) hq)⟩

end Synced

/-! ## Steps and runs -/

section Runs

variable [Fintype P]

/-- The invariant of the protocol. -/
structure Inv (σ : InodeTable P) : Prop where
  owned : σ.Owned
  synced : σ.Synced

namespace Inv

omit [DecidableEq P] in
theorem lock_ref_pos (h : σ.Inv) (hlock : (σ.entry ip).lock = some p) : 0 < (σ.entry ip).ref :=
  h.owned.ref_pos (h.owned.lock_own p ip hlock)

theorem iget (h : σ.Inv) (hidle : σ.pc p = .idle) (dev inum : ℕ) : (σ.iget p dev inum).Inv := by
  rw [InodeTable.iget]
  split
  · rename_i ip hfind
    have hfound := List.find?_some hfind
    rw [decide_eq_true_eq] at hfound
    refine ⟨h.owned.gain hidle rfl rfl, ?_⟩
    rw [← update_idle hidle]
    exact h.synced.keep hfound.1 (h.synced.clean ip) (quietAt hidle)
  · rename_i hnone
    split
    · rename_i ip hfind
      have h0 := List.find?_some hfind
      rw [decide_eq_true_eq] at h0
      refine ⟨h.owned.gain hidle (by rw [h0]) rfl, ?_⟩
      refine h.synced.change (fun jp _ hjp heq => ?_) (fun _ _ _ => rfl) (h.synced.clean ip)
        (fun _ _ => id) fun _ => nofun
      -- no entry in use is for this inode
      have := List.find?_eq_none.mp hnone jp (List.mem_finRange jp)
      rw [decide_eq_true_eq] at this
      exact this ⟨hjp, congrArg Prod.fst heq, congrArg Prod.snd heq⟩
    · exact ⟨h.owned.movePc, h.synced.movePc (quietAt hidle)⟩

theorem readInode (h : σ.Inv) (hpc : σ.pc p = .locking ip) : (σ.readInode p ip).Inv := by
  have hlock := h.owned.pc_lock p ip (hpc ▸ rfl)
  rw [InodeTable.readInode]
  split
  · exact ⟨h.owned.movePc, h.synced.movePc (quietAt hpc)⟩
  · constructor
    · refine h.owned.move rfl rfl (fun jp hjp => ?_) fun jp => ?_
      · split at hjp
        · exact Option.some.inj hjp ▸ hlock
        · cases hjp
      · split <;> nofun
    · refine h.synced.changeAt (h.lock_ref_pos hlock) (fun _ _ => rfl) (fun _ => rfl)
        (fun jp _ => quiet_of_update ((quietAt hpc) jp)) fun hq _ => ?_
      have htype : (σ.dinode (σ.entry ip).key).type ≠ 0 := by
        intro h0
        have := (hq p).2
        rw [update_self, if_pos h0] at this
        exact this rfl
      exact ⟨htype, htype, fun _ => rfl⟩

theorem iput (h : σ.Inv) (hidle : σ.pc p = .idle) (hspare : σ.Spare p ip)
    (hput : σ.iput p ip = some τ) : τ.Inv := by
  have hpos := h.owned.ref_pos hspare.1
  rw [InodeTable.iput] at hput
  split at hput
  · split at hput
    · rename_i hlock
      cases hput
      exact ⟨h.owned.take hspare.1 hlock rfl rfl rfl, h.synced.keep hpos nofun (quietAt hidle)⟩
    · cases hput
  · cases hput
    rw [← update_idle hidle]
    exact ⟨h.owned.lose hspare rfl rfl, h.synced.keep hpos (h.synced.clean ip) (quietAt hidle)⟩

/-- The stretches of an `iput` that frees the inode. -/
theorem iputNext (h : σ.Inv) (hnext : σ.iputNext p = some τ) : τ.Inv := by
  rw [InodeTable.iputNext] at hnext
  split at hnext
  · rename_i ip hpc
    cases hnext
    have hlock := h.owned.pc_lock p ip (hpc ▸ rfl)
    have hpos := h.lock_ref_pos hlock
    refine ⟨h.owned.move rfl rfl fun jp hjp => Option.some.inj hjp ▸ hlock, ?_⟩
    refine h.synced.changeAt hpos (fun k hk => update_of_ne hk ..) (h.synced.clean ip)
      (fun jp _ => quiet_of_update ((quietAt hpc) jp)) fun hq hvalid => ?_
    -- `itrunc` does not change the type
    have htype := (h.synced.copy ip hpos (quiet_of_update ((quietAt hpc) ip) hq) hvalid).1
    rw [update_self]
    exact ⟨htype, htype, fun _ => rfl⟩
  · rename_i ip hpc
    cases hnext
    have hlock := h.owned.pc_lock p ip (hpc ▸ rfl)
    have hpos := h.lock_ref_pos hlock
    refine ⟨h.owned.move rfl rfl fun jp hjp => Option.some.inj hjp ▸ hlock, ?_⟩
    refine h.synced.changeAt hpos (fun k hk => update_of_ne hk ..) (h.synced.clean ip)
      (fun jp _ => quiet_of_update ((quietAt hpc) jp)) fun hq => ?_
    have := (hq p).1
    rw [update_self] at this
    exact absurd rfl this
  · rename_i ip hpc
    cases hnext
    have hlock := h.owned.pc_lock p ip (hpc ▸ rfl)
    refine ⟨h.owned.release hlock rfl rfl (.inr rfl), h.synced.changeAt (h.lock_ref_pos hlock)
      (fun _ _ => rfl) (fun _ => rfl) (fun jp hj => quiet_of_update ?_) fun _ => nofun⟩
    rw [hpc]
    exact ⟨fun hc => hj (InodePc.freed.inj hc).symm, nofun⟩
  · rename_i ip hpc
    cases hnext
    obtain ⟨hown, hlock⟩ := h.owned.dropping p ip hpc
    exact ⟨h.owned.lose ⟨hown, fun hc => absurd hc hlock⟩ rfl rfl,
      h.synced.keep (h.owned.ref_pos hown) (h.synced.clean ip) (quietAt hpc)⟩
  · cases hnext

/-- **A step keeps the protocol.** -/
theorem step (h : σ.Inv) {a : InodeAction P} (hstep : σ.step a = some τ) : τ.Inv := by
  cases a with
  | iget p dev inum =>
    obtain ⟨hidle, rfl⟩ := of_guard hstep
    exact h.iget hidle dev inum
  | idup p ip =>
    obtain ⟨⟨hidle, hown⟩, rfl⟩ := of_guard hstep
    refine ⟨h.owned.gain hidle rfl rfl, ?_⟩
    rw [← update_idle hidle]
    exact h.synced.keep (h.owned.ref_pos hown) (h.synced.clean ip) (quietAt hidle)
  | pass p q ip =>
    obtain ⟨⟨hidle, hspare⟩, rfl⟩ := of_guard hstep
    exact ⟨h.owned.pass hspare hidle q, h.synced.inj, h.synced.clean, h.synced.copy⟩
  | ilock p ip =>
    obtain ⟨⟨hidle, hown, hfree⟩, rfl⟩ := of_guard hstep
    exact ⟨h.owned.take hown hfree rfl rfl rfl,
      h.synced.keep (h.owned.ref_pos hown) nofun (quietAt hidle)⟩
  | readInode p =>
    simp only [InodeTable.step] at hstep
    split at hstep
    · rename_i ip hpc
      cases hstep
      exact h.readInode hpc
    · cases hstep
  | modify p ip d =>
    obtain ⟨⟨hidle, hlock, htype⟩, rfl⟩ := of_guard hstep
    have hpos := h.lock_ref_pos hlock
    constructor
    · rw [← update_idle hidle]
      exact h.owned.move rfl rfl nofun
    · refine h.synced.changeAt hpos (fun _ _ => rfl) (fun hnone => ?_) (fun _ _ => id)
        fun hq hvalid => ?_
      · rw [hlock] at hnone
        cases hnone
      · obtain ⟨hcopy, hdisk, -⟩ := h.synced.copy ip hpos hq hvalid
        exact ⟨htype ▸ hcopy, hdisk, nofun⟩
  | iupdate p ip =>
    obtain ⟨⟨hidle, hlock⟩, rfl⟩ := of_guard hstep
    have hpos := h.lock_ref_pos hlock
    constructor
    · rw [← update_idle hidle]
      exact h.owned.move rfl rfl nofun
    · refine h.synced.changeAt hpos (fun k hk => update_of_ne hk ..) (fun _ => rfl)
        (fun _ _ => id) fun hq hvalid => ?_
      have hcopy := (h.synced.copy ip hpos hq hvalid).1
      rw [update_self]
      exact ⟨hcopy, hcopy, fun _ => rfl⟩
  | iunlock p ip =>
    obtain ⟨⟨hidle, hlock, hclean⟩, rfl⟩ := of_guard hstep
    rw [← update_idle hidle]
    exact ⟨h.owned.release hlock rfl rfl (.inl rfl),
      h.synced.keep (h.lock_ref_pos hlock) (fun _ => hclean) (quietAt hidle)⟩
  | iput p ip =>
    obtain ⟨⟨hidle, hspare⟩, hτ⟩ := Option.ite_none_right_eq_some.mp hstep
    exact h.iput hidle hspare hτ
  | iputNext p => exact h.iputNext hstep
  | ialloc p dev inum type =>
    obtain ⟨⟨hidle, hfree, -⟩, rfl⟩ := of_guard hstep
    refine ⟨⟨h.owned.ref_eq, h.owned.lock_own, h.owned.pc_lock, h.owned.dropping⟩, h.synced.inj,
      h.synced.clean, fun ip hpos hq hvalid => ?_⟩
    -- the inode of a valid copy is not free
    obtain ⟨hcopy, hdisk, hsame⟩ := h.synced.copy ip hpos hq hvalid
    have hne : (σ.entry ip).key ≠ (dev, inum) := fun heq => hdisk (heq ▸ hfree)
    dsimp only
    rw [update_of_ne hne]
    exact ⟨hcopy, hdisk, hsame⟩

omit [DecidableEq P] in
theorem init (dinode : ℕ × ℕ → Dinode) : (InodeTable.init dinode : InodeTable P).Inv where
  owned := {
    ref_eq := fun _ => (Finset.sum_const_zero).symm
    lock_own := nofun
    pc_lock := nofun
    dropping := nofun }
  synced := {
    inj := nofun
    clean := fun _ _ => rfl
    copy := nofun }

end Inv

/-- **The protocol of the inode table**, in every state that any processes reach: the references that
are counted are those that processes own, no two entries in use are for one inode, a valid copy that is
not locked is as on disk, who holds a sleep-lock owns a reference, and when `iput` is about to free an
inode its sleep-lock is free. -/
theorem inode_table_protocol {dinode : ℕ × ℕ → Dinode} {as : List (InodeAction P)}
    (hrun : runFrom step (init dinode) as = some σ) :
    (∀ ip, (σ.entry ip).ref = ∑ p, σ.own p ip) ∧
    (∀ ip jp, 0 < (σ.entry ip).ref → 0 < (σ.entry jp).ref → (σ.entry ip).dev = (σ.entry jp).dev →
      (σ.entry ip).inum = (σ.entry jp).inum → ip = jp) ∧
    (∀ ip, 0 < (σ.entry ip).ref → (σ.entry ip).valid = true → (σ.entry ip).lock = none →
      (σ.entry ip).copy = σ.dinode ((σ.entry ip).dev, (σ.entry ip).inum)) ∧
    (∀ p ip, (σ.entry ip).lock = some p → 0 < σ.own p ip) ∧
    ∀ p ip, σ.Spare p ip → (σ.entry ip).Unused → (σ.entry ip).lock = none := by
  have h : σ.Inv := runFrom_invariant (I := Inv) (fun _ _ _ h hstep => h.step hstep) (.init dinode) hrun
  refine ⟨h.owned.ref_eq, ?_, ?_, h.owned.lock_own, fun p ip hspare hunused => ?_⟩
  · intro ip jp hip hjp hdev hinum
    exact h.synced.inj ip jp hip hjp (Prod.ext hdev hinum)
  · intro ip hpos hvalid hlock
    have hq : Quiet σ.pc ip := by
      intro p
      constructor
      all_goals
        intro hpc
        have := h.owned.pc_lock p ip (hpc ▸ rfl)
        rw [hlock] at this
        cases this
    exact (h.synced.copy ip hpos hq hvalid).2.2 (h.synced.clean ip hlock)
  · exact h.owned.lock_eq_none hspare hunused.1

end Runs

/-- While process 0 frees inode 1, process 1 allocates it again and gets a reference to the same entry. -/
def reallocated : List (InodeAction (Fin 2)) :=
  [.ialloc 0 1 1 T_FILE, .iget 0 1 1, .ilock 0 0, .readInode 0, .iunlock 0 0, .iput 0 0, .iputNext 0,
    .iputNext 0, .ialloc 1 1 1 T_DIR, .iget 1 1 1, .iputNext 0, .iputNext 0, .ilock 1 0, .readInode 1,
    .iunlock 1 0]

theorem inode_table_protocol_reallocated : ∃ σ : InodeTable (Fin 2),
    runFrom step (init fun _ => ⟨0, 0, 0, 0, 0, fun _ => 0⟩) reallocated = some σ ∧
    (σ.entry 0).ref = 1 ∧ (σ.entry 0).copy = σ.dinode (1, 1) := by
  have hany : (runFrom step (init fun _ => ⟨0, 0, 0, 0, 0, fun _ => 0⟩) reallocated).any
      (fun σ : InodeTable (Fin 2) => decide ((σ.entry 0).ref = 1 ∧ (σ.entry 0).valid = true ∧
        (σ.entry 0).lock = none ∧ (σ.entry 0).dev = 1 ∧ (σ.entry 0).inum = 1)) = true := by
    decide +kernel
  obtain ⟨σ, hrun, hdec⟩ := (Option.any_eq_true _ _).mp hany
  obtain ⟨href, hvalid, hlock, hdev, hinum⟩ := of_decide_eq_true hdec
  have hcopy := (inode_table_protocol hrun).2.2.1 0 (by omega) hvalid hlock
  rw [hdev, hinum] at hcopy
  exact ⟨σ, hrun, href, hcopy⟩

end InodeTable

end Xv6
