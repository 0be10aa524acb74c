import Xv6.Virtio.Chains

/-! # Where a request is

Between the increment of `avail->idx` and the interrupt the head of a chain is in exactly one of four
places: in the available ring, with the device, on the way into the used ring, or in the used ring.
`Core` says so, and each step of the callers, of the device and of the interrupt handler keeps it. -/

namespace Xv6

open Function

namespace VirtioMem

variable {P B : Type*}

/-- The heads the device has not consumed. -/
def avail (s : VirtioMem B) : List ℕ :=
  Ring.window s.disk.availRing (2 ^ 16) s.lastAvail.toNat s.disk.availIdx.toNat

/-- The completions the driver has not processed. -/
def used (s : VirtioMem B) : List ℕ :=
  Ring.window s.disk.usedRing (2 ^ 16) s.disk.seenIdx.toNat s.disk.usedIdx.toNat

/-- The chains the device has completed. -/
def completed (s : VirtioMem B) : List ℕ := s.publishing.toList ++ s.used

/-- The chains between the increment of `avail->idx` and the interrupt. -/
def inFlight (s : VirtioMem B) : List ℕ := s.avail ++ s.service ++ s.completed

/-- The device has done what the call asks for. -/
def Served (s : VirtioMem B) (c : RwCall B) : Prop := s.served c.b = some ⟨c.write, c.sector⟩

/-- Where the formatted chains are. -/
structure Requests (s : VirtioMem B) (V : P → RwView B) : Prop where
  formatted : ∀ p c ch, (V p).formatted = some (c, ch) → s.disk.Formatted c ch
  built : ∀ p c ch, V p = .built c ch → s.owned c.b = true
  posted : ∀ p c ch, V p = .posted c ch →
    s.owned c.b = true ∧ ch.i0 ∈ s.inFlight ∨ s.owned c.b = false ∧ s.Served c
  done : ∀ p c ch, V p = .done c ch → s.owned c.b = false ∧ s.Served c
  queue : ∀ h ∈ s.inFlight, ∃ p c ch, V p = .posted c ch ∧ ch.i0 = h ∧ s.owned c.b = true
  distinct : s.inFlight.Nodup
  completed : ∀ p c ch, V p = .posted c ch → ch.i0 ∈ s.completed →
    (s.disk.info ch.i0).status = 0 ∧ s.Served c

/-- What holds of the shared memory when the calls are at `V`. -/
structure Core (s : VirtioMem B) (V : P → RwView B) : Prop where
  calls : Calls s.held fun p => (V p).call
  chains : Chains s.disk.free fun p => (V p).chain
  requests : s.Requests V
  publishing : ∀ h, s.publishing = some h → s.disk.usedRing (ringCell s.disk.usedIdx) = h
  submitted : s.submitted = s.consumed ++ s.avail
  processed : s.published = s.processed ++ s.used

variable {s t : VirtioMem B} {V V' : P → RwView B} {p q : P} {c c' : RwCall B} {ch ch' : Chain}

/-- A step that moves heads from one place to another, and calls that have no formatted chain. -/
theorem Requests.move (h : s.Requests V)
    (hV : ∀ q, V' q = V q ∨ (V' q).formatted = none ∧ (V q).formatted = none)
    (hfmt : ∀ q c ch, (V q).formatted = some (c, ch) → t.disk.Formatted c ch)
    (hin : t.inFlight.Perm s.inFlight)
    (hcomp : ∀ q c ch, V q = .posted c ch → ch.i0 ∈ t.completed →
      (t.disk.info ch.i0).status = 0 ∧ t.Served c)
    (howned : t.owned = s.owned) (hserved : t.served = s.served) : t.Requests V' := by
  have hback : ∀ q w, V' q = w → w.formatted ≠ none → V q = w := by
    intro q w hw hf
    rcases hV q with heq | ⟨hnone, -⟩
    · exact heq.symm.trans hw
    · rw [hw] at hnone
      exact absurd hnone hf
  have hforth : ∀ q w, V q = w → w.formatted ≠ none → V' q = w := by
    intro q w hw hf
    rcases hV q with heq | ⟨-, hnone⟩
    · exact heq.trans hw
    · rw [hw] at hnone
      exact absurd hnone hf
  have hserved' : ∀ c : RwCall B, t.Served c ↔ s.Served c := by
    intro c
    rw [Served, hserved, Served]
  constructor
  case formatted =>
    intro q c ch hq
    rw [← hback q (V' q) rfl (by rw [hq]; nofun)] at hq
    exact hfmt q c ch hq
  case built =>
    intro q c ch hq
    rw [howned]
    exact h.built q c ch (hback q _ hq nofun)
  case posted =>
    intro q c ch hq
    rw [howned, hserved', hin.mem_iff]
    exact h.posted q c ch (hback q _ hq nofun)
  case done =>
    intro q c ch hq
    rw [howned, hserved']
    exact h.done q c ch (hback q _ hq nofun)
  case queue =>
    intro i hi
    obtain ⟨q, c, ch, hq, heq, ho⟩ := h.queue i (hin.mem_iff.mp hi)
    exact ⟨q, c, ch, hforth q _ hq nofun, heq, by rwa [howned]⟩
  case distinct => exact hin.nodup_iff.mpr h.distinct
  case completed => exact fun q c ch hq => hcomp q c ch (hback q _ hq nofun)

/-- The request `c` with the chain `ch` is the same in both. -/
structure Like (s t : VirtioMem B) (c : RwCall B) (ch : Chain) : Prop where
  formatted : s.disk.Formatted c ch → t.disk.Formatted c ch
  owned : t.owned c.b = s.owned c.b
  served : t.served c.b = s.served c.b
  status : (t.disk.info ch.i0).status = (s.disk.info ch.i0).status

/-- What holds of a call that is at `w`. -/
def Own (t : VirtioMem B) : RwView B → Prop
  | .built c ch => t.disk.Formatted c ch ∧ t.owned c.b = true
  | .posted c ch => t.disk.Formatted c ch ∧
      (t.owned c.b = true ∧ ch.i0 ∈ t.inFlight ∨ t.owned c.b = false ∧ t.Served c) ∧
      (ch.i0 ∈ t.completed → (t.disk.info ch.i0).status = 0 ∧ t.Served c)
  | .done c ch => t.disk.Formatted c ch ∧ t.owned c.b = false ∧ t.Served c
  | _ => True

/-- A step of one call, or of the device for one call. -/
theorem Requests.own [DecidableEq P] (h : s.Requests V) {w : RwView B}
    (hlike : ∀ q c' ch', q ≠ p → (V q).formatted = some (c', ch') → s.Like t c' ch')
    (hin : ∀ q c' ch', q ≠ p → V q = .posted c' ch' → ch'.i0 ∈ s.inFlight → ch'.i0 ∈ t.inFlight)
    (hcomp : ∀ q c' ch', q ≠ p → V q = .posted c' ch' → ch'.i0 ∈ t.completed → ch'.i0 ∈ s.completed)
    (hqueue : ∀ i ∈ t.inFlight, (i ∈ s.inFlight ∧ ∀ c' ch', V p = .posted c' ch' → ch'.i0 ≠ i) ∨
      ∃ c' ch', w = .posted c' ch' ∧ ch'.i0 = i ∧ t.owned c'.b = true)
    (hdistinct : t.inFlight.Nodup) (hown : t.Own w) : t.Requests (update V p w) := by
  have hlike' : ∀ q c' ch', q ≠ p → (V q).formatted = some (c', ch') → (t.Served c' ↔ s.Served c') := by
    intro q c' ch' hne hq
    rw [Served, (hlike q c' ch' hne hq).served, Served]
  constructor
  case formatted =>
    intro q c' ch' hq
    rcases eq_or_ne q p with rfl | hne
    · rw [update_self] at hq
      cases w with
      | out | calling | raw => cases hq
      | built | posted | done =>
        cases hq
        exact hown.1
    · rw [update_of_ne hne] at hq
      exact (hlike q c' ch' hne hq).formatted (h.formatted q c' ch' hq)
  case built =>
    intro q c' ch' hq
    rcases update_cases hq with ⟨rfl, rfl⟩ | ⟨hne, hq⟩
    · exact hown.2
    · rw [(hlike q c' ch' hne (hq ▸ rfl)).owned]
      exact h.built q c' ch' hq
  case posted =>
    intro q c' ch' hq
    rcases update_cases hq with ⟨rfl, rfl⟩ | ⟨hne, hq⟩
    · exact hown.2.1
    · rw [(hlike q c' ch' hne (hq ▸ rfl)).owned, hlike' q c' ch' hne (hq ▸ rfl)]
      exact (h.posted q c' ch' hq).imp_left fun hp => ⟨hp.1, hin q c' ch' hne hq hp.2⟩
  case done =>
    intro q c' ch' hq
    rcases update_cases hq with ⟨rfl, rfl⟩ | ⟨hne, hq⟩
    · exact hown.2
    · rw [(hlike q c' ch' hne (hq ▸ rfl)).owned, hlike' q c' ch' hne (hq ▸ rfl)]
      exact h.done q c' ch' hq
  case queue =>
    intro i hi
    obtain ⟨hold, hnot⟩ | ⟨c', ch', hw, heq, ho⟩ := hqueue i hi
    · obtain ⟨q, c', ch', hq, heq, ho⟩ := h.queue i hold
      have hne : q ≠ p := by
        rintro rfl
        exact hnot c' ch' hq heq
      refine ⟨q, c', ch', ?_, heq, ?_⟩
      · rwa [update_of_ne hne]
      · rw [(hlike q c' ch' hne (hq ▸ rfl)).owned, ho]
    · exact ⟨p, c', ch', by rw [update_self, hw], heq, ho⟩
  case distinct => exact hdistinct
  case completed =>
    intro q c' ch' hq hmem
    rcases update_cases hq with ⟨rfl, rfl⟩ | ⟨hne, hq⟩
    · exact hown.2.2 hmem
    · rw [(hlike q c' ch' hne (hq ▸ rfl)).status, hlike' q c' ch' hne (hq ▸ rfl)]
      exact h.completed q c' ch' hq (hcomp q c' ch' hne hq hmem)

namespace Core

theorem lt_of_mem (h : s.Core V) {i : ℕ} (hi : i ∈ s.inFlight) : i < NUM := by
  obtain ⟨q, c, ch, hq, rfl, -⟩ := h.requests.queue i hi
  exact h.chains.head_lt (p := q) (hq ▸ rfl)

/-- The head of a chain that has not been posted is nowhere in flight. -/
theorem notMem_inFlight (h : s.Core V) (hchain : (V p).chain = some ch)
    (hp : ∀ c ch, V p ≠ .posted c ch) : ch.i0 ∉ s.inFlight := by
  intro hmem
  obtain ⟨q, c, ch', hq, heq, -⟩ := h.requests.queue ch.i0 hmem
  have hpq : q = p := h.chains.head_inj (hq ▸ rfl) hchain heq
  exact hp c ch' (hpq ▸ hq)

/-- The device has the buffer of a call whose head is in flight. -/
theorem owned_of_mem (h : s.Core V) (hp : V p = .posted c ch) (hmem : ch.i0 ∈ s.inFlight) :
    s.owned c.b = true := by
  obtain ⟨q, c', ch', hq, heq, ho⟩ := h.requests.queue ch.i0 hmem
  obtain rfl : q = p := h.chains.head_inj (hq ▸ rfl) (hp ▸ rfl) heq
  rw [hp] at hq
  cases hq
  exact ho

theorem length_inFlight_lt (h : s.Core V) (hchain : (V p).chain = some ch)
    (hp : ∀ c ch, V p ≠ .posted c ch) : s.inFlight.length < NUM :=
  length_lt_of_notMem h.requests.distinct (fun _ hj => h.lt_of_mem hj) (h.chains.head_lt hchain)
    (h.notMem_inFlight hchain hp)

/-- The buffers of different calls are different. -/
theorem buf_ne (h : s.Core V) (hp : (V p).call = some c) (hq : (V q).call = some c') (hne : q ≠ p) :
    c'.b ≠ c.b :=
  fun heq => hne (h.calls.apart q p c' c hq hp heq)

/-- The chains of different calls are disjoint. -/
theorem notMem_chain (h : s.Core V) (hp : (V p).chain = some ch) (hq : (V q).chain = some ch')
    (hne : q ≠ p) {i : ℕ} (hi : i ∈ ch'.toList) : i ∉ ch.toList :=
  fun hmem => hne (h.chains.disjoint q p ch' ch i hq hp hi hmem)

/-! ### Steps of the callers -/

section Update

variable [DecidableEq P] {w : RwView B}

theorem quiet_update (hw : w.formatted = none) (hp : (V p).formatted = none) (q : P) :
    update V p w q = V q ∨
      (update V p w q).formatted = none ∧ (V q).formatted = none := by
  rcases eq_or_ne q p with rfl | hne
  · rw [update_self]
    exact .inr ⟨hw, hp⟩
  · exact .inl (update_of_ne hne w V)

theorem calls_update (h : s.Core V) (hw : w.call = (V p).call) :
    Calls s.held fun q => (update V p w q).call := by
  rw [proj_update_same hw]
  exact h.calls

theorem chains_update (h : s.Core V) (hw : w.chain = (V p).chain) :
    Chains s.disk.free fun q => (update V p w q).chain := by
  rw [proj_update_same hw]
  exact h.chains

end Update

/-- The call begins. -/
theorem enter [DecidableEq P] [DecidableEq B] (h : s.Core V) (hp : V p = .out)
    (hb : s.held c.b = false) :
    Core { s with held := update s.held c.b true } (update V p (.calling c)) :=
  { h with
    calls := by
      rw [proj_update RwView.call]
      exact h.calls.enter (hp ▸ rfl) hb
    chains := h.chains_update (hp ▸ rfl)
    requests := h.requests.move (quiet_update rfl (hp ▸ rfl)) h.requests.formatted (.refl _)
      h.requests.completed rfl rfl }

section SameRings

variable {d : VDisk B} (hd : s.disk.SameRings d)
include hd

theorem avail_same : avail { s with disk := d } = s.avail := by
  rw [avail, avail, hd.availRing, hd.availIdx]

theorem used_same : used { s with disk := d } = s.used := by
  rw [used, used, hd.usedRing, hd.usedIdx, hd.seenIdx]

theorem completed_same : VirtioMem.completed { s with disk := d } = s.completed := by
  rw [VirtioMem.completed, used_same hd, VirtioMem.completed]

theorem inFlight_same : inFlight { s with disk := d } = s.inFlight := by
  rw [inFlight, avail_same hd, completed_same hd, inFlight]

end SameRings

section SameBut

variable {d : VDisk B} (hd : s.disk.SameBut d)
include hd

/-- The formatted chains survive `alloc3_desc`. -/
theorem requests_same (h : s.Core V)
    (hdesc : ∀ i, s.disk.free i = false → d.desc i = s.disk.desc i)
    (hV : ∀ q, V' q = V q ∨ (V' q).formatted = none ∧ (V q).formatted = none) :
    Requests { s with disk := d } V' := by
  apply h.requests.move hV
  case hfmt =>
    intro q c ch hq
    have hchain := (RwView.of_formatted hq).2
    apply (h.requests.formatted q c ch hq).of_eq
    · exact fun i hi => hdesc i (h.chains.taken q ch hchain i hi).2
    · rw [hd.ops]
    · rw [hd.info]
  case hin => rw [inFlight_same hd.toSameRings]
  case hcomp =>
    intro q c ch hq hmem
    rw [completed_same hd.toSameRings] at hmem
    show (d.info ch.i0).status = 0 ∧ s.Served c
    rw [hd.info]
    exact h.requests.completed q c ch hq hmem
  case howned => rfl
  case hserved => rfl

/-- `alloc3_desc` leaves the rings alone. -/
theorem of_same (h : s.Core V) (hcalls : Calls s.held fun q => (V' q).call)
    (hchains : Chains d.free fun q => (V' q).chain) (hreq : Requests { s with disk := d } V') :
    Core { s with disk := d } V' where
  calls := hcalls
  chains := hchains
  requests := hreq
  publishing := by
    dsimp only
    rw [hd.usedRing, hd.usedIdx]
    exact h.publishing
  submitted := by
    rw [avail_same hd.toSameRings]
    exact h.submitted
  processed := by
    rw [used_same hd.toSameRings]
    exact h.processed

/-- `alloc3_desc` succeeds. -/
theorem alloc [DecidableEq P] (h : s.Core V) (hp : V p = .calling c)
    (hfree : d.free = setFree s.disk.free ch false) (hdesc : d.desc = s.disk.desc)
    (hnodup : ch.toList.Nodup) (htaken : ∀ i ∈ ch.toList, i < NUM ∧ s.disk.free i = true) :
    Core { s with disk := d } (update V p (.raw c ch)) := by
  refine of_same hd h (h.calls_update (hp ▸ rfl)) ?_
    (requests_same hd h (fun i _ => by rw [hdesc]) (quiet_update rfl (hp ▸ rfl)))
  rw [proj_update RwView.chain, hfree]
  exact h.chains.alloc (hp ▸ rfl) hnodup htaken

/-- `alloc3_desc` fails. -/
theorem allocFail (h : s.Core V) (hfree : d.free = s.disk.free)
    (hdesc : ∀ i, s.disk.free i = false → d.desc i = s.disk.desc i) : Core { s with disk := d } V :=
  of_same hd h h.calls (hfree ▸ h.chains) (requests_same hd h hdesc fun _ => .inl rfl)

end SameBut

/-- The chain is formatted and the buffer given to the device. -/
theorem format [DecidableEq P] [DecidableEq B] (h : s.Core V) (hp : V p = .raw c ch) :
    Core { s with
      disk := s.disk.format ch c.b c.write c.sector
      owned := update s.owned c.b true
      served := update s.served c.b none } (update V p (.built c ch)) := by
  have hcall : (V p).call = some c := hp ▸ rfl
  have hchain : (V p).chain = some ch := hp ▸ rfl
  have hnot : ∀ c' ch', V p ≠ .posted c' ch' := by
    rw [hp]
    nofun
  refine { h with calls := h.calls_update hcall.symm, chains := h.chains_update hchain.symm, requests := ?_ }
  apply h.requests.own
  case hlike =>
    intro q c' ch' hne hq
    -- another call has another buffer and other descriptors
    obtain ⟨hcall', hchain'⟩ := RwView.of_formatted hq
    have hb : c'.b ≠ c.b := h.buf_ne hcall hcall' hne
    have hi : ch'.i0 ≠ ch.i0 := fun heq => hne (h.chains.head_inj hchain' hchain heq)
    refine ⟨fun hf => hf.of_eq ?_ ?_ ?_, ?_, ?_, ?_⟩
    · exact fun i hi => VDisk.desc_format (h.notMem_chain hchain hchain' hne hi)
    · exact update_of_ne hi _ _
    · exact congrArg DiskInfo.b (update_of_ne hi _ _)
    · exact update_of_ne hb _ _
    · exact update_of_ne hb _ _
    · exact congrArg DiskInfo.status (update_of_ne hi _ _)
  case hin => exact fun _ _ _ _ _ hmem => hmem
  case hcomp => exact fun _ _ _ _ _ hmem => hmem
  case hqueue => exact fun i hi => .inl ⟨hi, fun c' ch' hc => absurd hc (hnot c' ch')⟩
  case hdistinct => exact h.requests.distinct
  case hown => exact ⟨VDisk.format_formatted (h.chains.nodup p ch hchain), update_self ..⟩

theorem toNat_add_one (i : UInt16) : (i + 1).toNat = (i.toNat + 1) % 2 ^ 16 := UInt16.toNat_add i 1

theorem length_avail_lt (h : s.Core V) (hchain : (V p).chain = some ch)
    (hp : ∀ c ch, V p ≠ .posted c ch) :
    Ring.dist (2 ^ 16) s.lastAvail.toNat s.disk.availIdx.toNat < NUM := by
  have hlt := h.length_inFlight_lt hchain hp
  rw [inFlight, List.length_append, List.length_append, avail, Ring.length_window] at hlt
  omega

/-- The write of `avail->ring`: the entry is not one the device has yet to consume. -/
theorem avail_ring (h : s.Core V) (hp : V p = .built c ch) :
    avail { s with disk := { s.disk with
      availRing := update s.disk.availRing (ringCell s.disk.availIdx) ch.i0 } } = s.avail := by
  have hlt := h.length_avail_lt (show (V p).chain = some ch by rw [hp]; rfl) (by rw [hp]; nofun)
  exact Ring.window_update (by decide) s.lastAvail.toNat_lt s.disk.availIdx.toNat_lt hlt ch.i0

theorem ring (h : s.Core V) (hp : V p = .built c ch) :
    Core { s with disk := { s.disk with
      availRing := update s.disk.availRing (ringCell s.disk.availIdx) ch.i0 } } V := by
  have havail := h.avail_ring hp
  refine { h with requests := ?_, submitted := h.submitted.trans (congrArg _ havail.symm) }
  apply h.requests.move
  case hV => exact fun _ => .inl rfl
  case hfmt =>
    exact fun q c' ch' hq => (h.requests.formatted q c' ch' hq).of_eq (fun _ _ => rfl) rfl rfl
  case hin =>
    rw [inFlight, havail]
    rfl
  case hcomp => exact h.requests.completed
  case howned => rfl
  case hserved => rfl

/-- The increment of `avail->idx`. -/
theorem bump [DecidableEq P] (h : s.Core V) (hp : V p = .built c ch)
    (hring : s.disk.availRing (ringCell s.disk.availIdx) = ch.i0)
    (ht : t = { s with
      disk := { s.disk with availIdx := s.disk.availIdx + 1 }
      submitted := s.submitted ++ [ch.i0] } := by rfl) : t.Core (update V p (.posted c ch)) := by
  have hchain : (V p).chain = some ch := hp ▸ rfl
  have hnot : ∀ c' ch', V p ≠ .posted c' ch' := by
    rw [hp]
    nofun
  have havail : t.avail = s.avail ++ [ch.i0] := by
    have hlt := h.length_avail_lt hchain hnot
    have hnum : NUM < 2 ^ 16 := by decide
    have hwindow : Ring.window s.disk.availRing (2 ^ 16) s.lastAvail.toNat
        ((s.disk.availIdx.toNat + 1) % 2 ^ 16) = _ :=
      Ring.window_succ (by decide) s.lastAvail.toNat_lt s.disk.availIdx.toNat_lt (by omega)
    rw [← toNat_add_one] at hwindow
    rw [ht]
    refine hwindow.trans ?_
    rw [← hring]
    rfl
  have hcompleted : t.completed = s.completed := ht ▸ rfl
  have hperm : t.inFlight.Perm (ch.i0 :: s.inFlight) := by
    rw [inFlight, havail, hcompleted, ht, inFlight, List.append_assoc, List.append_assoc,
      List.append_assoc]
    exact List.perm_middle
  have hmem : ∀ i, i ∈ t.inFlight ↔ i = ch.i0 ∨ i ∈ s.inFlight := by
    intro i
    rw [hperm.mem_iff, List.mem_cons]
  have hformatted : t.disk.Formatted c ch :=
    ht ▸ (h.requests.formatted p c ch (hp ▸ rfl)).of_eq (fun _ _ => rfl) rfl rfl
  have hb : t.owned c.b = true := ht ▸ h.requests.built p c ch hp
  have hreq : t.Requests (update V p (.posted c ch)) := by
    apply h.requests.own
    case hlike =>
      intro q c' ch' hne hq
      rw [ht]
      exact ⟨fun hf => hf.of_eq (fun _ _ => rfl) rfl rfl, rfl, rfl, rfl⟩
    case hin => exact fun _ _ _ _ _ hm => (hmem _).mpr (.inr hm)
    case hcomp =>
      rw [hcompleted]
      exact fun _ _ _ _ _ hm => hm
    case hqueue =>
      intro i hi
      obtain rfl | hi := (hmem i).mp hi
      · exact .inr ⟨c, ch, rfl, rfl, hb⟩
      · exact .inl ⟨hi, fun c' ch' hc => absurd hc (hnot c' ch')⟩
    case hdistinct =>
      rw [hperm.nodup_iff, List.nodup_cons]
      exact ⟨h.notMem_inFlight hchain hnot, h.requests.distinct⟩
    case hown =>
      refine ⟨hformatted, .inl ⟨hb, (hmem _).mpr (.inl rfl)⟩, fun hm => ?_⟩
      -- a chain just posted is not complete
      rw [hcompleted] at hm
      exact absurd (List.mem_append_right _ hm) (h.notMem_inFlight hchain hnot)
  have hsub : t.submitted = t.consumed ++ t.avail := by
    rw [havail, ht, ← List.append_assoc, ← h.submitted]
  subst ht
  exact { h with
    calls := h.calls_update (hp ▸ rfl)
    chains := h.chains_update (hp ▸ rfl)
    requests := hreq
    submitted := hsub }

/-- The call finds `b->disk == 0`. -/
theorem notice [DecidableEq P] (h : s.Core V) (hp : V p = .posted c ch) (hb : s.owned c.b = false) :
    s.Core (update V p (.done c ch)) := by
  have hserved : s.Served c := by
    obtain ⟨ho, -⟩ | ⟨-, hs⟩ := h.requests.posted p c ch hp
    · rw [hb] at ho
      cases ho
    · exact hs
  refine { h with
    calls := h.calls_update (hp ▸ rfl)
    chains := h.chains_update (hp ▸ rfl)
    requests := ?_ }
  apply h.requests.own
  case hlike => exact fun _ _ _ _ _ => ⟨id, rfl, rfl, rfl⟩
  case hin => exact fun _ _ _ _ _ hm => hm
  case hcomp => exact fun _ _ _ _ _ hm => hm
  case hqueue =>
    intro i hi
    refine .inl ⟨hi, fun c' ch' hp' heq => ?_⟩
    -- the call's own head is in flight only while it waits
    obtain ⟨rfl, rfl⟩ : c' = c ∧ ch' = ch := by simpa [hp, eq_comm] using hp'
    have ho := h.owned_of_mem hp (heq ▸ hi)
    rw [hb] at ho
    cases ho
  case hdistinct => exact h.requests.distinct
  case hown => exact ⟨h.requests.formatted p c ch (hp ▸ rfl), hb, hserved⟩

/-- The chain is freed and the call returns. -/
theorem finish [DecidableEq P] [DecidableEq B] (h : s.Core V) (hp : V p = .done c ch) {d : VDisk B}
    (hrings : s.disk.SameRings d) (hops : d.ops = s.disk.ops)
    (hinfo : d.info = update s.disk.info ch.i0 { s.disk.info ch.i0 with b := none })
    (hfree : d.free = setFree s.disk.free ch true)
    (hdesc : ∀ i, i ∉ ch.toList → d.desc i = s.disk.desc i) :
    Core { s with disk := d, held := update s.held c.b false }
      (update V p .out) := by
  have hchain : (V p).chain = some ch := hp ▸ rfl
  constructor
  case calls =>
    rw [proj_update RwView.call]
    exact h.calls.leave (hp ▸ rfl)
  case chains =>
    rw [proj_update RwView.chain]
    dsimp only
    rw [hfree]
    exact h.chains.release hchain
  case publishing =>
    dsimp only
    rw [hrings.usedRing, hrings.usedIdx]
    exact h.publishing
  case submitted => exact h.submitted.trans (congrArg _ (avail_same hrings).symm)
  case processed => exact h.processed.trans (congrArg _ (used_same hrings).symm)
  case requests =>
    have hin : inFlight { s with disk := d, held := update s.held c.b false } = s.inFlight :=
      inFlight_same hrings
    have hcomp : VirtioMem.completed
        { s with disk := d, held := update s.held c.b false } = s.completed :=
      completed_same hrings
    apply h.requests.own
    case hlike =>
      intro q c' ch' hne hq
      obtain ⟨-, hchain'⟩ := RwView.of_formatted hq
      have hi : ch'.i0 ≠ ch.i0 := fun heq => hne (h.chains.head_inj hchain' hchain heq)
      have hinfo' : d.info ch'.i0 = s.disk.info ch'.i0 := by rw [hinfo, update_of_ne hi]
      refine ⟨fun hf => hf.of_eq (fun i hi => ?_) ?_ ?_, rfl, rfl, ?_⟩
      · exact hdesc i (h.notMem_chain hchain hchain' hne hi)
      · rw [hops]
      · rw [hinfo']
      · rw [hinfo']
    case hin => exact fun _ _ _ _ _ hm => hin ▸ hm
    case hcomp => exact fun _ _ _ _ _ hm => hcomp ▸ hm
    case hqueue =>
      rw [hin, hp]
      exact fun i hi => .inl ⟨hi, nofun⟩
    case hdistinct => exact hin ▸ h.requests.distinct
    case hown => trivial

/-! ### Steps of the device and of the interrupt handler -/

/-- The device consumes the next head. -/
theorem consume (h : s.Core V) (hne : s.lastAvail ≠ s.disk.availIdx)
    (ht : t = { s with
      lastAvail := s.lastAvail + 1
      service := s.service ++ [s.disk.availRing (ringCell s.lastAvail)]
      consumed := s.consumed ++ [s.disk.availRing (ringCell s.lastAvail)] } := by rfl) : t.Core V := by
  have havail : s.avail = s.disk.availRing (ringCell s.lastAvail) :: t.avail := by
    have hne' : s.lastAvail.toNat ≠ s.disk.availIdx.toNat := fun hc => hne (UInt16.toNat_inj.mp hc)
    have hwindow : s.avail = _ :=
      Ring.window_eq_cons (by decide) s.lastAvail.toNat_lt s.disk.availIdx.toNat_lt hne'
    rw [hwindow, ht, avail, toNat_add_one]
    rfl
  have hsub : t.submitted = t.consumed ++ t.avail := by
    have hsub := h.submitted
    rw [havail, List.append_cons, ← show t.submitted = s.submitted by rw [ht]] at hsub
    rw [hsub, ht]
  have hin : t.inFlight.Perm s.inFlight := by
    have hservice : t.service = s.service ++ [s.disk.availRing (ringCell s.lastAvail)] := by rw [ht]
    have hcompleted : t.completed = s.completed := ht ▸ rfl
    rw [inFlight, inFlight, hcompleted, havail, hservice, ← List.append_assoc, List.append_assoc _ [_],
      List.cons_append, List.cons_append]
    exact List.perm_middle
  subst ht
  exact { h with
    submitted := hsub
    requests := h.requests.move (fun _ => .inl rfl) h.requests.formatted hin h.requests.completed rfl rfl }

/-- The used ring has room as long as some head is not in it. -/
theorem length_used_lt (h : s.Core V) {i : ℕ} (hi : i ∈ s.inFlight) (hused : i ∉ s.used) :
    Ring.dist (2 ^ 16) s.disk.seenIdx.toNat s.disk.usedIdx.toNat < NUM := by
  have hmem : ∀ j ∈ s.used, j ∈ s.inFlight := fun j hj =>
    List.mem_append_right _ (List.mem_append_right _ hj)
  have hnd : s.used.Nodup :=
    (List.nodup_append.mp (List.nodup_append.mp h.requests.distinct).2.1).2.1
  have hlen := length_lt_of_notMem hnd (fun j hj => h.lt_of_mem (hmem j hj)) (h.lt_of_mem hi) hused
  rwa [used, Ring.length_window] at hlen

/-- The device increments `used->idx`. -/
theorem publish (h : s.Core V) {i : ℕ} (hi : s.publishing = some i)
    (ht : t = { s with
      disk := { s.disk with usedIdx := s.disk.usedIdx + 1 }
      publishing := none
      published := s.published ++ [i] } := by rfl) : t.Core V := by
  have hs : s.completed = i :: s.used := by rw [VirtioMem.completed, hi]; rfl
  -- the head that is published is not among those published before
  have hlt : Ring.dist (2 ^ 16) s.disk.seenIdx.toNat s.disk.usedIdx.toNat < NUM := by
    have hnd : (i :: s.used).Nodup := hs ▸ (List.nodup_append.mp h.requests.distinct).2.1
    refine h.length_used_lt (List.mem_append_right _ ?_) (List.nodup_cons.mp hnd).1
    rw [hs]
    exact List.mem_cons_self
  have hused : t.used = s.used ++ [i] := by
    have hnum : NUM < 2 ^ 16 := by decide
    have hwindow : Ring.window s.disk.usedRing (2 ^ 16) s.disk.seenIdx.toNat
        ((s.disk.usedIdx.toNat + 1) % 2 ^ 16) = _ :=
      Ring.window_succ (by decide) s.disk.seenIdx.toNat_lt s.disk.usedIdx.toNat_lt (by omega)
    rw [← toNat_add_one] at hwindow
    rw [ht]
    refine hwindow.trans ?_
    rw [← h.publishing i hi]
    rfl
  have hperm : t.completed.Perm s.completed := by
    rw [hs, VirtioMem.completed, hused, ht]
    exact List.perm_append_singleton i s.used
  have hin : t.inFlight.Perm s.inFlight := by
    have hleft : t.avail ++ t.service = s.avail ++ s.service := ht ▸ rfl
    rw [inFlight, hleft, inFlight]
    exact hperm.append_left _
  have hproc : t.published = t.processed ++ t.used := by
    rw [hused, ht, ← List.append_assoc, ← h.processed]
  subst ht
  refine { h with processed := hproc, publishing := nofun, requests := ?_ }
  apply h.requests.move
  case hV => exact fun _ => .inl rfl
  case hfmt =>
    exact fun q c ch hq => (h.requests.formatted q c ch hq).of_eq (fun _ _ => rfl) rfl rfl
  case hin => exact hin
  case hcomp => exact fun q c ch hq hm => h.requests.completed q c ch hq (hperm.mem_iff.mp hm)
  case howned => rfl
  case hserved => rfl

/-- The device completes a chain and writes the entry of the used ring. -/
theorem complete [DecidableEq P] [DecidableEq B] (h : s.Core V) (hpub : s.publishing = none)
    (hp : V p = .posted c ch) {l : List ℕ} (hl : s.service.Perm (ch.i0 :: l))
    (ht : t = { s with
      disk := { s.disk with
        info := update s.disk.info ch.i0 { s.disk.info ch.i0 with status := 0 }
        usedRing := update s.disk.usedRing (ringCell s.disk.usedIdx) ch.i0 }
      service := l
      publishing := some ch.i0
      served := update s.served c.b (some ⟨c.write, c.sector⟩) } := by rfl) : t.Core V := by
  have hcall : (V p).call = some c := hp ▸ rfl
  have hchain : (V p).chain = some ch := hp ▸ rfl
  have hmem : ch.i0 ∈ s.inFlight :=
    List.mem_append_left _ (List.mem_append_right _ (hl.mem_iff.mpr List.mem_cons_self))
  have hperm₀ : s.inFlight.Perm (ch.i0 :: (s.avail ++ l ++ s.used)) := by
    have hs : s.completed = s.used := by rw [VirtioMem.completed, hpub]; rfl
    rw [inFlight, hs]
    refine ((hl.append_left s.avail).append_right s.used).trans ?_
    rw [List.append_assoc, List.append_assoc, List.cons_append]
    exact List.perm_middle
  -- the entry written is not one the driver has yet to process
  have hlt := h.length_used_lt hmem fun hc =>
    (List.nodup_cons.mp (hperm₀.nodup_iff.mp h.requests.distinct)).1 (List.mem_append_right _ hc)
  have hused : t.used = s.used := by
    rw [ht]
    exact Ring.window_update (by decide) s.disk.seenIdx.toNat_lt s.disk.usedIdx.toNat_lt hlt ch.i0
  have hcompleted : t.completed = ch.i0 :: s.used := by
    rw [VirtioMem.completed, hused, ht]
    rfl
  have hperm : t.inFlight.Perm s.inFlight := by
    have hleft : t.avail ++ t.service = s.avail ++ l := ht ▸ rfl
    rw [inFlight, hleft, hcompleted]
    exact List.perm_middle.trans hperm₀.symm
  have howned : t.owned c.b = true := ht ▸ h.owned_of_mem hp hmem
  have hproc : t.published = t.processed ++ t.used := by
    rw [hused, ht]
    exact h.processed
  have hreq : t.Requests (update V p (V p)) := by
    apply h.requests.own
    case hlike =>
      intro q c' ch' hne hq
      obtain ⟨hcall', hchain'⟩ := RwView.of_formatted hq
      have hb : c'.b ≠ c.b := h.buf_ne hcall hcall' hne
      have hi : ch'.i0 ≠ ch.i0 := fun heq => hne (h.chains.head_inj hchain' hchain heq)
      rw [ht]
      refine ⟨fun hf => hf.of_eq (fun _ _ => rfl) rfl ?_, rfl, update_of_ne hb _ _, ?_⟩
      · exact congrArg DiskInfo.b (update_of_ne hi _ _)
      · exact congrArg DiskInfo.status (update_of_ne hi _ _)
    case hin => exact fun _ _ _ _ _ hm => hperm.mem_iff.mpr hm
    case hcomp =>
      intro q c' ch' hne hq hm
      rw [hcompleted] at hm
      rcases List.mem_cons.mp hm with heq | hm
      · exact absurd (h.chains.head_inj (hq ▸ rfl) hchain heq) hne
      · exact List.mem_append_right _ hm
    case hqueue =>
      intro i hi
      by_cases heq : ch.i0 = i
      · exact .inr ⟨c, ch, hp, heq, howned⟩
      · refine .inl ⟨hperm.mem_iff.mp hi, fun c' ch' hp' => ?_⟩
        rw [hp] at hp'
        cases hp'
        exact heq
    case hdistinct => exact hperm.nodup_iff.mpr h.requests.distinct
    case hown =>
      rw [hp]
      refine ⟨?_, .inl ⟨howned, hperm.mem_iff.mpr hmem⟩, fun _ => ⟨?_, ?_⟩⟩ <;> rw [ht]
      · refine (h.requests.formatted p c ch (hp ▸ rfl)).of_eq (fun _ _ => rfl) rfl ?_
        dsimp only
        rw [update_self]
      · dsimp only
        rw [update_self]
      · exact update_self ..
  rw [update_eq_self] at hreq
  subst ht
  refine { h with requests := hreq, processed := hproc, publishing := fun i hi => ?_ }
  cases hi
  exact update_self ..

/-- The next entry of the used ring is the chain of a call that waits, and it is complete. -/
theorem next_used (h : s.Core V) (hne : s.disk.seenIdx ≠ s.disk.usedIdx) :
    ∃ p c ch, V p = .posted c ch ∧ ch.i0 = s.disk.usedRing (ringCell s.disk.seenIdx) ∧
      s.owned c.b = true ∧ (s.disk.info ch.i0).status = 0 ∧ (s.disk.info ch.i0).b = some c.b ∧
      s.Served c ∧ s.used = ch.i0 :: Ring.window s.disk.usedRing (2 ^ 16)
        (s.disk.seenIdx + 1).toNat s.disk.usedIdx.toNat := by
  have hne' : s.disk.seenIdx.toNat ≠ s.disk.usedIdx.toNat := fun hc => hne (UInt16.toNat_inj.mp hc)
  have hwindow : s.used = _ :=
    Ring.window_eq_cons (by decide) s.disk.seenIdx.toNat_lt s.disk.usedIdx.toNat_lt hne'
  rw [← toNat_add_one] at hwindow
  have hused : s.disk.usedRing (ringCell s.disk.seenIdx) ∈ s.completed := by
    apply List.mem_append_right
    rw [hwindow]
    exact List.mem_cons_self
  obtain ⟨p, c, ch, hp, heq, ho⟩ := h.requests.queue _ (List.mem_append_right _ hused)
  obtain ⟨hstatus, hserved⟩ := h.requests.completed p c ch hp (by rwa [heq])
  refine ⟨p, c, ch, hp, heq, ho, hstatus, ?_, hserved, ?_⟩
  · exact (h.requests.formatted p c ch (hp ▸ rfl)).info
  · rw [heq]
    exact hwindow

/-- `virtio_disk_intr` processes the next entry of the used ring. -/
theorem process [DecidableEq P] [DecidableEq B] (h : s.Core V) (hp : V p = .posted c ch)
    (hserved : s.Served c) (hused : s.used = ch.i0 :: Ring.window s.disk.usedRing (2 ^ 16)
      (s.disk.seenIdx + 1).toNat s.disk.usedIdx.toNat)
    (ht : t = { s with
      disk := { s.disk with seenIdx := s.disk.seenIdx + 1 }
      owned := update s.owned c.b false
      processed := s.processed ++ [ch.i0] } := by rfl) : t.Core V := by
  have hused' : s.used = ch.i0 :: t.used := by
    rw [hused, ht]
    rfl
  have hpub : t.publishing = s.publishing := by rw [ht]
  have hcall : (V p).call = some c := hp ▸ rfl
  have hchain : (V p).chain = some ch := hp ▸ rfl
  have hperm : s.inFlight.Perm (ch.i0 :: t.inFlight) := by
    have hleft : t.avail ++ t.service = s.avail ++ s.service := ht ▸ rfl
    rw [inFlight, inFlight, hleft, VirtioMem.completed, VirtioMem.completed, hpub, hused',
      ← List.append_assoc, ← List.append_assoc]
    exact List.perm_middle
  have hnd := hperm.nodup_iff.mp h.requests.distinct
  have hmem : ∀ i, i ∈ t.inFlight → i ≠ ch.i0 ∧ i ∈ s.inFlight := by
    intro i hi
    refine ⟨?_, hperm.mem_iff.mpr (List.mem_cons_of_mem _ hi)⟩
    rintro rfl
    exact (List.nodup_cons.mp hnd).1 hi
  have hproc : t.published = t.processed ++ t.used := by
    have hproc := h.processed
    rw [hused', List.append_cons, ← show t.published = s.published by rw [ht]] at hproc
    rw [hproc, ht]
  have hreq : t.Requests (update V p (V p)) := by
    apply h.requests.own
    case hlike =>
      intro q c' ch' hne hq
      obtain ⟨hcall', -⟩ := RwView.of_formatted hq
      rw [ht]
      exact ⟨fun hf => hf.of_eq (fun _ _ => rfl) rfl rfl,
        update_of_ne (h.buf_ne hcall hcall' hne) _ _, rfl, rfl⟩
    case hin =>
      intro q c' ch' hne hq hm
      rcases List.mem_cons.mp (hperm.mem_iff.mp hm) with heq | hm
      · exact absurd (h.chains.head_inj (hq ▸ rfl) hchain heq) hne
      · exact hm
    case hcomp =>
      intro q c' ch' hne hq hm
      rw [VirtioMem.completed, List.mem_append, hpub] at hm
      rw [VirtioMem.completed, List.mem_append, hused']
      exact hm.imp_right (List.mem_cons_of_mem _)
    case hqueue =>
      intro i hi
      obtain ⟨hne, hi⟩ := hmem i hi
      refine .inl ⟨hi, fun c' ch' hp' => ?_⟩
      rw [hp] at hp'
      cases hp'
      exact hne.symm
    case hdistinct => exact (List.nodup_cons.mp hnd).2
    case hown =>
      rw [hp]
      refine ⟨?_, .inr ⟨?_, ?_⟩, fun hm => ?_⟩
      · rw [ht]
        exact (h.requests.formatted p c ch (hp ▸ rfl)).of_eq (fun _ _ => rfl) rfl rfl
      · rw [ht]
        exact update_self ..
      · rw [ht]
        exact hserved
      · -- the head has left the used ring
        exact absurd rfl (hmem ch.i0 (List.mem_append_right _ hm)).1
  rw [update_eq_self] at hreq
  subst ht
  exact { h with requests := hreq, processed := hproc }

end Core

end VirtioMem

end Xv6
