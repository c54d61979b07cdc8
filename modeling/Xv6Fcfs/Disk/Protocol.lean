import Xv6Fcfs.Lib.Queue
import Xv6Fcfs.Disk.Invariant

/-!
# The driver and the device

The sections of the driver under `vdisk_lock` interleave in any order, on any number of
CPUs: a process that sleeps in the driver may go on at any time, whether it was woken or
not, and the loop of `virtio_disk_intr` is taken one turn at a time.  The device takes
heads from the available ring in order and answers those it has taken in any order, each
once and with status 0.

Requests are numbered when they are submitted.  The numbers, and the lists of the answered
and of the processed requests, are not part of the program.
-/

set_option autoImplicit false

namespace Xv6Fcfs.Disk

open Xv6Fcfs.Lib Xv6Fcfs.Process

/-- `ident p` is the latest request of `p`, `owner i` the latest one submitted with head
`i`, and `buffer r` the buffer of request `r`. -/
structure Rings where
  sys : Sys
  next : Nat
  ident : Slot → Nat
  owner : DescIdx → Nat
  buffer : Nat → Fin NBUF
  answered : List Nat
  processed : List Nat

inductive RingEvent where
  | rw (p : Slot) (req : Request)
  | retry (p : Slot)
  | recheck (p : Slot)
  | take
  | answer (id : DescIdx)
  | intr (me : Option Slot)

def Rings.boot : Rings := ⟨Sys.boot, 0, fun _ => 0, fun _ => 0, fun _ => 0, [], []⟩

/-- A request submitted by `p` gets the next number. -/
def Rings.number (w : Rings) (p : Slot) (s : Sys) : Rings :=
  match s.pc p with
  | .diskWait b i0 _ _ =>
      { w with
        sys := s
        next := w.next + 1
        ident := Function.update w.ident p w.next
        owner := Function.update w.owner i0 w.next
        buffer := Function.update w.buffer w.next b }
  | _ => { w with sys := s }

/-- One turn of the loop of `virtio_disk_intr`. -/
def Rings.intrTurn (w : Rings) (me : Option Slot) : Option Rings :=
  if w.sys.disk.usedIdx = w.sys.disk.usedRingIdx then none
  else
    (intrLoop me 1 w.sys.kernel w.sys.disk).map fun kd =>
      { w with
        sys := { w.sys with kernel := kd.1, disk := kd.2 }
        processed := w.processed ++ [w.owner (w.sys.disk.usedRing (ringSlot w.sys.disk.usedIdx))] }

def Rings.step (w : Rings) : RingEvent → Option Rings
  | .rw p req =>
      if w.sys.pc p = .outside ∧ w.sys.bufferFree req.b then
        (w.sys.askDescs p req).map (w.number p)
      else none
  | .retry p =>
      match w.sys.pc p with
      | .allocWait req => (w.sys.askDescs p req).map (w.number p)
      | _ => none
  | .recheck p =>
      match w.sys.pc p with
      | .diskWait b i0 i1 i2 => (w.sys.checkDone p b i0 i1 i2).map fun s => { w with sys := s }
      | _ => none
  | .take => w.sys.disk.take.map fun d => { w with sys := { w.sys with disk := d } }
  | .answer id =>
      (w.sys.disk.answer id 0).map fun d =>
        { w with
          sys := { w.sys with disk := d }
          answered := w.answered ++ [w.owner id] }
  | .intr me => w.intrTurn me

/-! ## The invariant -/

/-- `i` is the head of a request that is not over. -/
def Busy (s : Sys) (i : DescIdx) : Prop :=
  ∃ p b i1 i2, s.pc p = .diskWait b i i1 i2 ∧ s.disk.bufDisk b = true

structure Waiting (w : Rings) (p : Slot) (b : Fin NBUF) (i0 : DescIdx) : Prop where
  info : (w.sys.disk.info i0).b = some b
  owner : w.owner i0 = w.ident p
  buffer : w.buffer (w.ident p) = b
  small : w.ident p < w.next
  done : w.sys.disk.bufDisk b = false ↔ w.ident p ∈ w.processed

/-- The heads on their way: `pend` in the available ring, `devTaken` at the device, `done`
in the used ring. -/
structure Flow (w : Rings) (pend done : List DescIdx) : Prop where
  avail : Queued (2 ^ 16) w.sys.disk.availRing w.sys.disk.devSeen w.sys.disk.availIdx pend
  used : Queued (2 ^ 16) w.sys.disk.usedRing w.sys.disk.usedIdx w.sys.disk.usedRingIdx done
  nodup : (pend ++ (w.sys.disk.devTaken ++ done)).Nodup
  busy : ∀ i, i ∈ pend ++ (w.sys.disk.devTaken ++ done) ↔ Busy w.sys i
  status : ∀ i, i ∈ done → (w.sys.disk.info i).status = 0
  answered : w.answered = w.processed ++ done.map w.owner

structure RingInv (w : Rings) : Prop where
  desc : DescInv w.sys.disk w.sys.pc
  owned : ∀ i, w.sys.disk.free i = false →
    ∃ p b i0 i1 i2, w.sys.pc p = .diskWait b i0 i1 i2 ∧ i ∈ [i0, i1, i2]
  waits : ∀ p b i0 i1 i2, w.sys.pc p = .diskWait b i0 i1 i2 → Waiting w p b i0
  idents : ∀ p q b i0 i1 i2 b' j0 j1 j2, w.sys.pc p = .diskWait b i0 i1 i2 →
    w.sys.pc q = .diskWait b' j0 j1 j2 → w.ident p = w.ident q → p = q
  flow : ∃ pend done, Flow w pend done
  small : ∀ r, r ∈ w.answered → r < w.next
  once : w.answered.Nodup

section Facts
variable {w : Rings} {pend done : List DescIdx} {i : DescIdx}

theorem length_le_NUM {l : List DescIdx} (nodup : l.Nodup) : l.length ≤ NUM := by
  have most := nodup.length_le_card
  rwa [Fintype.card_fin] at most

theorem length_lt_NUM {l : List DescIdx} (nodup : l.Nodup) (fresh : i ∉ l) : l.length < NUM := by
  have most := length_le_NUM (List.nodup_cons.mpr ⟨fresh, nodup⟩)
  rwa [List.length_cons] at most

theorem RingInv.head_unique (inv : RingInv w) {p q : Slot} {b b' : Fin NBUF}
    {i0 i1 i2 j1 j2 : DescIdx} (atP : w.sys.pc p = .diskWait b i0 i1 i2)
    (atQ : w.sys.pc q = .diskWait b' i0 j1 j2) : p = q := by
  by_contra differ
  have apart := inv.desc.apart p q b i0 i1 i2 b' i0 j1 j2 differ atP atQ i0 (by simp)
  exact apart (by simp)

theorem RingInv.buffer_unique (inv : RingInv w) {p q : Slot} {b : Fin NBUF}
    {i0 i1 i2 j0 j1 j2 : DescIdx} (atP : w.sys.pc p = .diskWait b i0 i1 i2)
    (atQ : w.sys.pc q = .diskWait b j0 j1 j2) : p = q := by
  by_contra differ
  exact inv.desc.bufs p q b differ (by rw [atP]; rfl) (by rw [atQ]; rfl)

theorem RingInv.unanswered (inv : RingInv w) (flow : Flow w pend done) {p : Slot} {b : Fin NBUF}
    {i1 i2 : DescIdx} (at_ : w.sys.pc p = .diskWait b i i1 i2) (busy : w.sys.disk.bufDisk b = true)
    (fresh : i ∉ done) : w.ident p ∉ w.answered := by
  rw [flow.answered, List.mem_append]
  rintro (early | late)
  · have no := (inv.waits p b i i1 i2 at_).done.mpr early
    rw [busy] at no
    cases no
  · obtain ⟨j, member, same⟩ := List.mem_map.mp late
    obtain ⟨q, b', j1, j2, atQ, -⟩ := (flow.busy j).mp (by simp [member])
    have other := (inv.waits q b' j j1 j2 atQ).owner
    obtain rfl := inv.idents p q b i i1 i2 b' j j1 j2 at_ atQ (same.symm.trans other)
    rw [at_] at atQ
    simp only [DrvPc.diskWait.injEq] at atQ
    exact fresh (atQ.2.1 ▸ member)

end Facts

/-! ## The device -/

section Device
variable {w : Rings} {pend done : List DescIdx}

theorem RingInv.take (inv : RingInv w) {d : VDisk} (run : w.sys.disk.take = some d) :
    RingInv { w with sys := { w.sys with disk := d } } := by
  obtain ⟨pend, done, flow⟩ := inv.flow
  unfold VDisk.take at run
  split at run
  · cases run
  · rename_i more
    obtain rfl := Option.some.inj run
    cases pend with
    | nil => exact absurd ((flow.avail.empty_iff (by decide)).mpr rfl) more
    | cons i rest =>
        have head : w.sys.disk.availRing (ringSlot w.sys.disk.devSeen) = i := flow.avail.first
        have moved : (rest ++ (i :: w.sys.disk.devTaken ++ done)).Perm
            (i :: rest ++ (w.sys.disk.devTaken ++ done)) := List.perm_middle
        refine ⟨inv.desc.congr (fun _ _ => rfl) fun _ taken => taken, inv.owned,
          fun q b i0 i1 i2 at_ => ?_, inv.idents, ⟨rest, done, ?_⟩, inv.small, inv.once⟩
        · have old := inv.waits q b i0 i1 i2 at_
          exact ⟨old.info, old.owner, old.buffer, old.small, old.done⟩
        · refine ⟨flow.avail.pop (by decide), flow.used, ?_, ?_, flow.status, flow.answered⟩
          · rw [head]
            exact moved.nodup_iff.mpr flow.nodup
          · intro j
            rw [head]
            exact moved.mem_iff.trans (flow.busy j)

theorem RingInv.answer (inv : RingInv w) {id : DescIdx} {d : VDisk}
    (run : w.sys.disk.answer id 0 = some d) :
    RingInv { w with sys := { w.sys with disk := d }, answered := w.answered ++ [w.owner id] } := by
  obtain ⟨pend, done, flow⟩ := inv.flow
  unfold VDisk.answer at run
  split at run
  · rename_i taken
    obtain rfl := Option.some.inj run
    have moved : (pend ++ (w.sys.disk.devTaken.erase id ++ (done ++ [id]))).Perm
        (pend ++ (w.sys.disk.devTaken ++ done)) := by
      apply List.Perm.append_left
      rw [← List.append_assoc]
      refine (List.perm_append_singleton id _).trans ?_
      rw [← List.cons_append]
      exact (List.perm_cons_erase taken).symm.append_right done
    have fresh : id ∉ done := by
      have apart := (List.nodup_append.mp (List.nodup_append.mp flow.nodup).2.1).2.2
      exact fun member => apart id taken id member rfl
    obtain ⟨p, b, i1, i2, at_, busy⟩ := (flow.busy id).mp (by simp [taken])
    have wait := inv.waits p b id i1 i2 at_
    have info : ∀ i, (Function.update w.sys.disk.info id
        { w.sys.disk.info id with status := 0 } i).b = (w.sys.disk.info i).b := by
      intro i
      by_cases here : i = id
      · subst here
        rw [Function.update_self]
      · rw [Function.update_of_ne here]
    have unanswered := inv.unanswered flow at_ busy fresh
    refine ⟨inv.desc.congr (fun _ _ => rfl) fun _ taken => taken, inv.owned,
      fun q c i0 j1 j2 atQ => ?_, inv.idents, ⟨pend, done ++ [id], ?_⟩, ?_, ?_⟩
    · have old := inv.waits q c i0 j1 j2 atQ
      exact ⟨(info i0).trans old.info, old.owner, old.buffer, old.small, old.done⟩
    · refine ⟨flow.avail, ?_, moved.nodup_iff.mpr flow.nodup,
        fun j => moved.mem_iff.trans (flow.busy j), ?_, ?_⟩
      · have nodup := (List.nodup_append.mp (List.nodup_append.mp flow.nodup).2.1).2.1
        exact flow.used.push (by decide) (length_lt_NUM nodup fresh) id
      · intro i member
        by_cases here : i = id
        · subst here
          simp only [Function.update_self]
        · simp only [Function.update_of_ne here]
          rcases List.mem_append.mp member with old | new
          · exact flow.status i old
          · exact absurd (List.mem_singleton.mp new) here
      · simp only [flow.answered, List.append_assoc, List.map_append, List.map_cons, List.map_nil]
    · intro r member
      rcases List.mem_append.mp member with old | new
      · exact inv.small r old
      · rw [List.mem_singleton.mp new, wait.owner]
        exact wait.small
    · rw [wait.owner]
      exact (List.perm_append_singleton _ _).nodup_iff.mpr
        (List.nodup_cons.mpr ⟨unanswered, inv.once⟩)
  · cases run

end Device

/-! ## The interrupt -/

section Interrupt
variable {w w' : Rings} {me : Option Slot}

structure Completes (w w' : Rings) (r : Nat) : Prop where
  posted : w.answered[w.processed.length]? = some r
  processed : w'.processed = w.processed ++ [r]
  cleared : w'.sys.disk.bufDisk = Function.update w.sys.disk.bufDisk (w.buffer r) false

theorem RingInv.intr (inv : RingInv w)
    (more : w.sys.disk.usedIdx ≠ w.sys.disk.usedRingIdx) :
    ∃ w', w.intrTurn me = some w' ∧ RingInv w' ∧ ∃ r, Completes w w' r := by
  obtain ⟨pend, done, flow⟩ := inv.flow
  cases done with
  | nil => exact absurd ((flow.used.empty_iff (by decide)).mpr rfl) more
  | cons id rest =>
      have head : w.sys.disk.usedRing (ringSlot w.sys.disk.usedIdx) = id := flow.used.first
      obtain ⟨p, b, i1, i2, at_, busy⟩ := (flow.busy id).mp (by simp)
      have wait := inv.waits p b id i1 i2 at_
      have status := flow.status id (List.mem_cons_self ..)
      simp only [Rings.intrTurn, if_neg more, intrLoop, head, status, wait.info, ne_eq,
        not_true_eq_false, if_false, Option.map_some]
      refine ⟨_, rfl, ?_, w.ident p, ?_⟩
      · have moved : (pend ++ (w.sys.disk.devTaken ++ id :: rest)).Perm
            (id :: (pend ++ (w.sys.disk.devTaken ++ rest))) := by
          rw [← List.append_assoc, ← List.append_assoc]
          exact List.perm_middle
        obtain ⟨fresh, nodup⟩ := List.nodup_cons.mp (moved.nodup_iff.mp flow.nodup)
        have others : ∀ q c i0 j1 j2, w.sys.pc q = .diskWait c i0 j1 j2 → q ≠ p → c ≠ b := by
          rintro q c i0 j1 j2 atQ differ rfl
          exact differ (inv.buffer_unique atQ at_)
        refine ⟨inv.desc.congr (fun _ _ => rfl) fun _ taken => taken, inv.owned,
          fun q c i0 j1 j2 atQ => ?_, inv.idents, ⟨pend, rest, ?_⟩, inv.small, inv.once⟩
        · have old := inv.waits q c i0 j1 j2 atQ
          refine ⟨old.info, old.owner, old.buffer, old.small, ?_⟩
          simp only [List.mem_append, List.mem_singleton, wait.owner]
          by_cases own : q = p
          · subst own
            rw [at_] at atQ
            simp only [DrvPc.diskWait.injEq] at atQ
            simp [← atQ.1]
          · have differ : w.ident q ≠ w.ident p := by
              intro same
              exact own (inv.idents q p c i0 j1 j2 b id i1 i2 atQ at_ same)
            simp only [Function.update_of_ne (others q c i0 j1 j2 atQ own), differ, or_false]
            exact old.done
        · refine ⟨flow.avail, flow.used.pop (by decide), nodup, ?_,
            fun i member => flow.status i (List.mem_cons_of_mem _ member), ?_⟩
          · intro j
            have before := moved.mem_iff.symm.trans (flow.busy j)
            rw [List.mem_cons] at before
            constructor
            · intro member
              obtain ⟨q, c, j1, j2, atQ, still⟩ := before.mp (Or.inr member)
              refine ⟨q, c, j1, j2, atQ, ?_⟩
              have own : q ≠ p := by
                rintro rfl
                rw [at_] at atQ
                simp only [DrvPc.diskWait.injEq] at atQ
                exact fresh (atQ.2.1 ▸ member)
              simp only [Function.update_of_ne (others q c j j1 j2 atQ own)]
              exact still
            · rintro ⟨q, c, j1, j2, atQ, still⟩
              have own : q ≠ p := by
                rintro rfl
                simp only at atQ still
                rw [at_] at atQ
                simp only [DrvPc.diskWait.injEq] at atQ
                simp [← atQ.1] at still
              simp only [Function.update_of_ne (others q c j j1 j2 atQ own)] at still
              rcases before.mpr ⟨q, c, j1, j2, atQ, still⟩ with same | member
              · exact absurd (inv.head_unique (same ▸ atQ) at_) own
              · exact member
          · have all := flow.answered
            simp only [List.map_cons] at all
            simp only [all, List.append_assoc, List.singleton_append]
      · refine ⟨?_, ?_, ?_⟩
        · rw [flow.answered, List.getElem?_append_right (Nat.le_refl _), Nat.sub_self]
          simp only [List.map_cons, List.getElem?_cons_zero, wait.owner]
        · simp only [wait.owner]
        · simp only [wait.buffer]

end Interrupt

/-! ## The calls -/

section Calls
variable {w : Rings} {p : Slot}

theorem RingInv.elsewhere (inv : RingInv w) {s : Sys} {place : DrvPc} {descs : DescIdx → VirtqDesc}
    (before : ∀ b i0 i1 i2, w.sys.pc p ≠ .diskWait b i0 i1 i2)
    (after : ∀ b i0 i1 i2, place ≠ .diskWait b i0 i1 i2)
    (pc : s.pc = Function.update w.sys.pc p place) (desc : DescInv s.disk s.pc)
    (same : s.disk = { w.sys.disk with desc := descs }) : RingInv { w with sys := s } := by
  have other : ∀ q b i0 i1 i2, s.pc q = .diskWait b i0 i1 i2 ↔
      w.sys.pc q = .diskWait b i0 i1 i2 := by
    intro q b i0 i1 i2
    rw [pc]
    by_cases own : q = p
    · subst own
      rw [Function.update_self]
      exact ⟨fun no => absurd no (after b i0 i1 i2), fun no => absurd no (before b i0 i1 i2)⟩
    · rw [Function.update_of_ne own]
  obtain ⟨pend, done, flow⟩ := inv.flow
  have fields : s.disk.free = w.sys.disk.free ∧ s.disk.info = w.sys.disk.info ∧
      s.disk.bufDisk = w.sys.disk.bufDisk := by
    rw [same]
    exact ⟨rfl, rfl, rfl⟩
  have busy : ∀ i, Busy s i ↔ Busy w.sys i := by
    intro i
    simp only [Busy, other, fields.2.2]
  refine ⟨desc, ?_, ?_, ?_, ⟨pend, done, ?_⟩, inv.small, inv.once⟩
  · intro i taken
    simp only [fields.1] at taken
    obtain ⟨q, b, i0, i1, i2, at_, member⟩ := inv.owned i taken
    exact ⟨q, b, i0, i1, i2, (other q b i0 i1 i2).mpr at_, member⟩
  · intro q b i0 i1 i2 at_
    have old := inv.waits q b i0 i1 i2 ((other q b i0 i1 i2).mp at_)
    refine ⟨?_, old.owner, old.buffer, old.small, ?_⟩
    · simp only [fields.2.1]
      exact old.info
    · simp only [fields.2.2]
      exact old.done
  · intro q q' b i0 i1 i2 b' j0 j1 j2 at_ at'
    exact inv.idents q q' b i0 i1 i2 b' j0 j1 j2 ((other q b i0 i1 i2).mp at_)
      ((other q' b' j0 j1 j2).mp at')
  · refine ⟨?_, ?_, ?_, fun i => ?_, ?_, flow.answered⟩
    · simp only [same]
      exact flow.avail
    · simp only [same]
      exact flow.used
    · simp only [same]
      exact flow.nodup
    · rw [busy]
      simp only [same]
      exact flow.busy i
    · simp only [fields.2.1]
      exact flow.status

theorem RingInv.submitted (inv : RingInv w) (req : Request) {i0 i1 i2 : DescIdx} (k : Kernel)
    (before : ∀ b i0 i1 i2, w.sys.pc p ≠ .diskWait b i0 i1 i2)
    (buffer : ∀ q, q ≠ p → (w.sys.pc q).buffer ≠ some req.b) (nodup : [i0, i1, i2].Nodup)
    (free : ∀ i, i ∈ [i0, i1, i2] → w.sys.disk.free i = true) :
    RingInv (w.number p (w.sys.sleepAt p (.buf req.b) (.diskWait req.b i0 i1 i2) k
      (submit req i0 i1 i2 (w.sys.disk.grab [i0, i1, i2])))) := by
  obtain ⟨pend, done, flow⟩ := inv.flow
  have place : (w.sys.sleepAt p (.buf req.b) (.diskWait req.b i0 i1 i2) k
      (submit req i0 i1 i2 (w.sys.disk.grab [i0, i1, i2]))).pc p = .diskWait req.b i0 i1 i2 := by
    simp only [Sys.sleepAt, Function.update_self]
  simp only [Rings.number, place]
  -- no head on its way is free
  have fresh : i0 ∉ pend ++ (w.sys.disk.devTaken ++ done) := by
    intro member
    obtain ⟨q, b, j1, j2, at_, -⟩ := (flow.busy i0).mp member
    have taken := (inv.desc.chains q b i0 j1 j2 at_).taken i0 (by simp)
    rw [free i0 (by simp)] at taken
    cases taken
  have others : ∀ q b j0 j1 j2, w.sys.pc q = .diskWait b j0 j1 j2 →
      q ≠ p ∧ j0 ≠ i0 ∧ b ≠ req.b := by
    intro q b j0 j1 j2 at_
    have differ : q ≠ p := by
      rintro rfl
      exact before b j0 j1 j2 at_
    refine ⟨differ, ?_, ?_⟩
    · rintro rfl
      have taken := (inv.desc.chains q b j0 j1 j2 at_).taken j0 (by simp)
      rw [free j0 (by simp)] at taken
      cases taken
    · rintro rfl
      exact buffer q differ (by rw [at_]; rfl)
  have cases' : ∀ q b j0 j1 j2, Function.update w.sys.pc p (.diskWait req.b i0 i1 i2) q =
      .diskWait b j0 j1 j2 →
      (q = p ∧ b = req.b ∧ j0 = i0 ∧ j1 = i1 ∧ j2 = i2) ∨
      (q ≠ p ∧ w.sys.pc q = .diskWait b j0 j1 j2) := by
    intro q b j0 j1 j2 at_
    by_cases own : q = p
    · subst own
      rw [Function.update_self] at at_
      simp only [DrvPc.diskWait.injEq] at at_
      exact Or.inl ⟨rfl, at_.1.symm, at_.2.1.symm, at_.2.2.1.symm, at_.2.2.2.symm⟩
    · rw [Function.update_of_ne own] at at_
      exact Or.inr ⟨own, at_⟩
  have unseen : w.next ∉ w.processed := by
    intro member
    have low := inv.small w.next (by rw [flow.answered]; exact List.mem_append_left _ member)
    exact Nat.lt_irrefl _ low
  refine ⟨inv.desc.submitted req nodup free buffer, ?_, ?_, ?_, ⟨pend ++ [i0], done, ?_⟩, ?_,
    inv.once⟩
  · intro i taken
    simp only [Sys.sleepAt, submit, VDisk.grab, Bool.and_eq_false_imp] at taken
    by_cases was : w.sys.disk.free i = true
    · have member : i ∈ [i0, i1, i2] := by simpa [or_iff_not_imp_left] using taken was
      exact ⟨p, req.b, i0, i1, i2, by simp only [Sys.sleepAt, Function.update_self], member⟩
    · obtain ⟨q, b, j0, j1, j2, at_, member⟩ := inv.owned i (by simpa using was)
      refine ⟨q, b, j0, j1, j2, ?_, member⟩
      simp only [Sys.sleepAt, Function.update_of_ne (others q b j0 j1 j2 at_).1]
      exact at_
  · intro q b j0 j1 j2 at_
    simp only [Sys.sleepAt] at at_
    rcases cases' q b j0 j1 j2 at_ with ⟨rfl, rfl, rfl, rfl, rfl⟩ | ⟨own, old⟩
    · refine ⟨?_, ?_, ?_, ?_, ?_⟩
      · simp [Sys.sleepAt, submit]
      · simp
      · simp
      · simp
      · simp [Sys.sleepAt, submit, unseen]
    · obtain ⟨-, head, buf⟩ := others q b j0 j1 j2 old
      have wait := inv.waits q b j0 j1 j2 old
      have low : w.ident q ≠ w.next := Nat.ne_of_lt wait.small
      refine ⟨?_, ?_, ?_, ?_, ?_⟩
      · simpa [Sys.sleepAt, submit, head, VDisk.grab] using wait.info
      · simpa [own, head] using wait.owner
      · simpa [own, low] using wait.buffer
      · simp only [Function.update_of_ne own]
        exact Nat.lt_succ_of_lt wait.small
      · simpa [Sys.sleepAt, submit, buf, own, VDisk.grab] using wait.done
  · intro q q' b j0 j1 j2 b' l0 l1 l2 at_ at' same
    simp only [Sys.sleepAt] at at_ at' same
    rcases cases' q b j0 j1 j2 at_ with ⟨rfl, -⟩ | ⟨own, old⟩
    · rcases cases' q' b' l0 l1 l2 at' with ⟨rfl, -⟩ | ⟨own', old'⟩
      · rfl
      · simp only [Function.update_self, Function.update_of_ne own'] at same
        have low := (inv.waits q' b' l0 l1 l2 old').small
        omega
    · rcases cases' q' b' l0 l1 l2 at' with ⟨rfl, -⟩ | ⟨own', old'⟩
      · simp only [Function.update_self, Function.update_of_ne own] at same
        have low := (inv.waits q b j0 j1 j2 old).small
        omega
      · simp only [Function.update_of_ne own, Function.update_of_ne own'] at same
        exact inv.idents q q' b j0 j1 j2 b' l0 l1 l2 old old' same
  · have moved : (pend ++ [i0] ++ (w.sys.disk.devTaken ++ done)).Perm
        (i0 :: (pend ++ (w.sys.disk.devTaken ++ done))) := by
      rw [List.append_assoc]
      exact List.perm_middle
    refine ⟨?_, flow.used, ?_, ?_, ?_, ?_⟩
    · have nodup := (List.nodup_append.mp flow.nodup).1
      exact flow.avail.push (by decide)
        (length_lt_NUM nodup fun member => fresh (List.mem_append_left _ member)) i0
    · exact moved.nodup_iff.mpr (List.nodup_cons.mpr ⟨fresh, flow.nodup⟩)
    · intro j
      refine moved.mem_iff.trans ?_
      rw [List.mem_cons]
      constructor
      · rintro (rfl | member)
        · refine ⟨p, req.b, i1, i2, by simp only [Sys.sleepAt, Function.update_self], ?_⟩
          simp [Sys.sleepAt, submit]
        · obtain ⟨q, b, j1, j2, at_, busy⟩ := (flow.busy j).mp member
          obtain ⟨own, -, buf⟩ := others q b j j1 j2 at_
          refine ⟨q, b, j1, j2, ?_, ?_⟩
          · simp only [Sys.sleepAt, Function.update_of_ne own]
            exact at_
          · simpa [Sys.sleepAt, submit, buf, VDisk.grab] using busy
      · rintro ⟨q, b, j1, j2, at_, busy⟩
        simp only [Sys.sleepAt] at at_
        rcases cases' q b j j1 j2 at_ with ⟨-, -, rfl, -⟩ | ⟨own, old⟩
        · exact Or.inl rfl
        · obtain ⟨-, -, buf⟩ := others q b j j1 j2 old
          exact Or.inr ((flow.busy j).mpr ⟨q, b, j1, j2, old, by
            simpa [Sys.sleepAt, submit, buf, VDisk.grab] using busy⟩)
    · intro i member
      have differ : i ≠ i0 := fun same => fresh (by simp [← same, member])
      simpa [Sys.sleepAt, submit, differ, VDisk.grab] using flow.status i member
    · rw [flow.answered]
      congr 1
      apply List.map_congr_left
      intro i member
      have differ : i ≠ i0 := fun same => fresh (by simp [← same, member])
      simp only [Function.update_of_ne differ]
  · intro r member
    exact Nat.lt_succ_of_lt (inv.small r member)

theorem RingInv.ask (inv : RingInv w) (req : Request)
    (before : ∀ b i0 i1 i2, w.sys.pc p ≠ .diskWait b i0 i1 i2)
    (buffer : ∀ q, q ≠ p → (w.sys.pc q).buffer ≠ some req.b) :
    ∃ s, w.sys.askDescs p req = some s ∧ RingInv (w.number p s) ∧
      (s.pc p = .allocWait req → s.disk.free = w.sys.disk.free) := by
  rcases askDescs_cases w.sys p req with ⟨short, out⟩ | ⟨-, i0, i1, i2, nodup, free, out⟩
  · refine ⟨_, out, ?_, fun _ => rfl⟩
    have place : (w.sys.sleepAt p .diskFree (.allocWait req)
        (if w.sys.disk.nfree = 0 then w.sys.kernel else wakeWaiters p w.sys.kernel)
        w.sys.disk.cleared).pc p = .allocWait req := by
      simp only [Sys.sleepAt, Function.update_self]
    simp only [Rings.number, place]
    refine inv.elsewhere before (fun b j0 j1 j2 no => by cases no) rfl ?_ rfl
    refine inv.desc.cleared.move _ ?_ (fun b j0 j1 j2 no => by cases no)
    intro b same
    obtain rfl := Option.some.inj same
    exact buffer
  · refine ⟨_, out, inv.submitted req _ before buffer nodup free, ?_⟩
    intro no
    simp [Sys.sleepAt] at no

theorem RingInv.congr (inv : RingInv w) {s : Sys} (disk : s.disk = w.sys.disk)
    (pc : s.pc = w.sys.pc) : RingInv { w with sys := s } := by
  obtain ⟨kernel, cpu, d, c⟩ := s
  simp only at disk pc
  subst disk pc
  obtain ⟨pend, done, flow⟩ := inv.flow
  refine ⟨inv.desc, inv.owned, ?_, inv.idents, ⟨pend, done, ?_⟩, inv.small, inv.once⟩
  · intro q b i0 i1 i2 at_
    have old := inv.waits q b i0 i1 i2 at_
    exact ⟨old.info, old.owner, old.buffer, old.small, old.done⟩
  · exact ⟨flow.avail, flow.used, flow.nodup, flow.busy, flow.status, flow.answered⟩

theorem RingInv.finished (inv : RingInv w) {b : Fin NBUF} {i0 i1 i2 : DescIdx} (k : Kernel)
    (at_ : w.sys.pc p = .diskWait b i0 i1 i2) (idle : w.sys.disk.bufDisk b = false) :
    RingInv { w with sys := { w.sys with
      kernel := k
      disk := (w.sys.disk.forget i0).releaseAll [i0, i1, i2]
      pc := Function.update w.sys.pc p .outside } } := by
  obtain ⟨pend, done, flow⟩ := inv.flow
  have others : ∀ q c j0 j1 j2, Function.update w.sys.pc p .outside q = .diskWait c j0 j1 j2 ↔
      q ≠ p ∧ w.sys.pc q = .diskWait c j0 j1 j2 := by
    intro q c j0 j1 j2
    by_cases own : q = p
    · subst own
      simp
    · simp [own]
  have forgotten : DescInv (w.sys.disk.forget i0) w.sys.pc :=
    inv.desc.congr (fun _ _ => rfl) fun _ taken => taken
  have head : ∀ q c j0 j1 j2, q ≠ p → w.sys.pc q = .diskWait c j0 j1 j2 → j0 ≠ i0 := by
    rintro q c j0 j1 j2 own atQ rfl
    exact own (inv.head_unique atQ at_)
  refine ⟨forgotten.released at_, ?_, ?_, ?_, ⟨pend, done, ?_⟩, inv.small, inv.once⟩
  · intro i taken
    simp only [VDisk.releaseAll, VDisk.forget, Bool.or_eq_false_iff, decide_eq_false_iff_not]
      at taken
    obtain ⟨q, c, j0, j1, j2, atQ, member⟩ := inv.owned i taken.1
    have own : q ≠ p := by
      rintro rfl
      rw [at_] at atQ
      simp only [DrvPc.diskWait.injEq] at atQ
      obtain ⟨-, rfl, rfl, rfl⟩ := atQ
      exact taken.2 member
    exact ⟨q, c, j0, j1, j2, (others q c j0 j1 j2).mpr ⟨own, atQ⟩, member⟩
  · intro q c j0 j1 j2 atQ
    obtain ⟨own, old⟩ := (others q c j0 j1 j2).mp atQ
    have wait := inv.waits q c j0 j1 j2 old
    refine ⟨?_, wait.owner, wait.buffer, wait.small, wait.done⟩
    simp only [VDisk.releaseAll, VDisk.forget, Function.update_of_ne (head q c j0 j1 j2 own old)]
    exact wait.info
  · intro q q' c j0 j1 j2 c' l0 l1 l2 atQ atQ'
    exact inv.idents q q' c j0 j1 j2 c' l0 l1 l2 ((others q c j0 j1 j2).mp atQ).2
      ((others q' c' l0 l1 l2).mp atQ').2
  · refine ⟨flow.avail, flow.used, flow.nodup, ?_, ?_, flow.answered⟩
    · intro i
      refine (flow.busy i).trans ?_
      constructor
      · rintro ⟨q, c, j1, j2, atQ, busy⟩
        have own : q ≠ p := by
          rintro rfl
          rw [at_] at atQ
          simp only [DrvPc.diskWait.injEq] at atQ
          rw [← atQ.1, idle] at busy
          cases busy
        exact ⟨q, c, j1, j2, (others q c i j1 j2).mpr ⟨own, atQ⟩, busy⟩
      · rintro ⟨q, c, j1, j2, atQ, busy⟩
        exact ⟨q, c, j1, j2, ((others q c i j1 j2).mp atQ).2, busy⟩
    · intro i member
      have status := flow.status i member
      simp only [VDisk.releaseAll, VDisk.forget]
      by_cases here : i = i0
      · subst here
        simpa using status
      · simpa [here] using status

theorem RingInv.recheck (inv : RingInv w) {b : Fin NBUF} {i0 i1 i2 : DescIdx}
    (at_ : w.sys.pc p = .diskWait b i0 i1 i2) :
    ∃ s, w.sys.checkDone p b i0 i1 i2 = some s ∧ RingInv { w with sys := s } ∧
      (s.pc p = .outside → w.ident p ∈ w.processed) := by
  have wait := inv.waits p b i0 i1 i2 at_
  rcases checkDone_cases (s := w.sys) (p := p) (b := b) (inv.desc.chains p b i0 i1 i2 at_) with
    ⟨-, out⟩ | ⟨done, out⟩
  · refine ⟨_, out, inv.congr rfl ?_, ?_⟩
    · simp only [Sys.sleepAt, ← at_, Function.update_eq_self]
    · intro no
      simp [Sys.sleepAt] at no
  · exact ⟨_, out, inv.finished _ at_ done, fun _ => wait.done.mp done⟩

end Calls

/-! ## Runs -/

/-- What the driver promises in every state. -/
structure Served (w : Rings) : Prop where
  distinct : ∀ p b i0 i1 i2, w.sys.pc p = .diskWait b i0 i1 i2 → [i0, i1, i2].Nodup
  apart : ∀ p q b i0 i1 i2 b' j0 j1 j2, p ≠ q → w.sys.pc p = .diskWait b i0 i1 i2 →
    w.sys.pc q = .diskWait b' j0 j1 j2 → ∀ i, i ∈ [i0, i1, i2] → i ∉ [j0, j1, j2]
  free : ∀ i, w.sys.disk.free i = true ↔
    ∀ p b i0 i1 i2, w.sys.pc p = .diskWait b i0 i1 i2 → i ∉ [i0, i1, i2]
  own : ∀ p b i0 i1 i2, w.sys.pc p = .diskWait b i0 i1 i2 →
    w.owner i0 = w.ident p ∧ w.buffer (w.ident p) = b
  once : w.answered.Nodup ∧ w.processed <+: w.answered
  caught : w.sys.disk.usedIdx = w.sys.disk.usedRingIdx ↔ w.processed = w.answered
  asks : ∀ p req, (w.sys.pc p = .outside ∧ w.sys.bufferFree req.b) ∨
    w.sys.pc p = .allocWait req → (w.sys.askDescs p req).isSome
  checks : ∀ p b i0 i1 i2, w.sys.pc p = .diskWait b i0 i1 i2 →
    (w.sys.checkDone p b i0 i1 i2).isSome
  turns : ∀ me, w.sys.disk.usedIdx ≠ w.sys.disk.usedRingIdx → (w.intrTurn me).isSome

/-- What it promises of every step. -/
structure StepServed (w : Rings) (e : RingEvent) (w' : Rings) : Prop where
  failed : ∀ p req, (e = .rw p req ∨ e = .retry p) → w'.sys.pc p = .allocWait req →
    w'.sys.disk.free = w.sys.disk.free
  completes : ∀ me, e = .intr me → ∃ r, Completes w w' r
  keeps : (∀ me, e ≠ .intr me) → w'.processed = w.processed ∧
    ∀ b, w.sys.disk.bufDisk b = true → w'.sys.disk.bufDisk b = true
  returns : ∀ p, e = .recheck p → w'.sys.pc p = .outside →
    w.ident p ∈ w.answered ∧ w.ident p ∈ w.processed

section Runs
variable {w w' : Rings} {p : Slot}

theorem boot_ringInv : RingInv Rings.boot := by
  have queue : ∀ ring : DescIdx → DescIdx, Queued (2 ^ 16) ring 0 0 [] :=
    fun _ => Queued.nil (by decide)
  refine ⟨boot_sysInv.desc, ?_, ?_, ?_, ⟨[], [], ?_⟩, ?_, List.nodup_nil⟩
  · intro i taken
    cases taken
  · intro p b i0 i1 i2 at_
    cases at_
  · intro p q b i0 i1 i2 b' j0 j1 j2 at_
    cases at_
  · refine ⟨queue _, queue _, List.nodup_nil, fun i => ⟨?_, ?_⟩, ?_, rfl⟩
    · intro member
      cases member
    · rintro ⟨p, b, i1, i2, at_, -⟩
      cases at_
    · intro i member
      cases member
  · intro r member
    cases member

theorem RingInv.served (inv : RingInv w) : Served w := by
  obtain ⟨pend, done, flow⟩ := inv.flow
  refine ⟨fun p b i0 i1 i2 at_ => (inv.desc.chains p b i0 i1 i2 at_).nodup, inv.desc.apart, ?_, ?_,
    ?_, ?_, ?_, ?_, ?_⟩
  · intro i
    constructor
    · intro free p b i0 i1 i2 at_ member
      have taken := (inv.desc.chains p b i0 i1 i2 at_).taken i member
      rw [free] at taken
      cases taken
    · intro unused
      by_contra taken
      obtain ⟨p, b, i0, i1, i2, at_, member⟩ := inv.owned i (by simpa using taken)
      exact unused p b i0 i1 i2 at_ member
  · intro p b i0 i1 i2 at_
    have wait := inv.waits p b i0 i1 i2 at_
    exact ⟨wait.owner, wait.buffer⟩
  · exact ⟨inv.once, flow.answered ▸ List.prefix_append _ _⟩
  · refine (flow.used.empty_iff (by decide)).trans ?_
    rw [flow.answered, List.self_eq_append_right, List.map_eq_nil_iff]
  · rintro p req -
    rcases askDescs_cases w.sys p req with ⟨-, out⟩ | ⟨-, i0, i1, i2, -, -, out⟩
    · rw [out]
      rfl
    · rw [out]
      rfl
  · intro p b i0 i1 i2 at_
    obtain ⟨s, out, -⟩ := inv.recheck at_
    rw [out]
    rfl
  · intro me more
    obtain ⟨w', out, -⟩ : ∃ w', w.intrTurn me = some w' ∧ RingInv w' ∧ ∃ r, Completes w w' r :=
      inv.intr more
    rw [out]
    rfl

theorem ask_keeps {s : Sys} {req : Request} (run : w.sys.askDescs p req = some s) :
    (w.number p s).processed = w.processed ∧
      ∀ b, w.sys.disk.bufDisk b = true → (w.number p s).sys.disk.bufDisk b = true := by
  have sys : (w.number p s).sys = s := by
    unfold Rings.number
    split <;> rfl
  have processed : (w.number p s).processed = w.processed := by
    unfold Rings.number
    split <;> rfl
  refine ⟨processed, ?_⟩
  intro b busy
  rw [sys]
  rcases askDescs_cases w.sys p req with ⟨-, out⟩ | ⟨-, i0, i1, i2, -, -, out⟩
  · obtain rfl := Option.some.inj (run.symm.trans out)
    exact busy
  · obtain rfl := Option.some.inj (run.symm.trans out)
    simp only [Sys.sleepAt, submit, VDisk.grab, Function.update_apply, busy, ite_self]

theorem ring_ask_step (inv : RingInv w) {req : Request} {e : RingEvent}
    (before : ∀ b i0 i1 i2, w.sys.pc p ≠ .diskWait b i0 i1 i2)
    (buffer : ∀ q, q ≠ p → (w.sys.pc q).buffer ≠ some req.b)
    (event : e = .rw p req ∨ (e = .retry p ∧ w.sys.pc p = .allocWait req))
    (run : (w.sys.askDescs p req).map (w.number p) = some w') :
    RingInv w' ∧ StepServed w e w' := by
  obtain ⟨s, out, kept, failed⟩ := inv.ask req before buffer
  rw [out] at run
  obtain rfl := Option.some.inj run
  have sys : (w.number p s).sys = s := by
    unfold Rings.number
    split <;> rfl
  refine ⟨kept, ?_, ?_, fun _ => ask_keeps out, ?_⟩
  · intro q req' which at_
    have own : q = p := by
      rcases event with rfl | ⟨rfl, -⟩ <;> rcases which with same | same <;> cases same <;> rfl
    subst own
    rw [sys] at at_ ⊢
    have same : req' = req := by
      rcases askDescs_cases w.sys q req with ⟨-, asked⟩ | ⟨-, i0, i1, i2, -, -, asked⟩
      · obtain rfl := Option.some.inj (out.symm.trans asked)
        simp only [Sys.sleepAt, Function.update_self, DrvPc.allocWait.injEq] at at_
        exact at_.symm
      · obtain rfl := Option.some.inj (out.symm.trans asked)
        simp only [Sys.sleepAt, Function.update_self] at at_
        cases at_
    exact failed (same ▸ at_)
  · rintro me rfl
    rcases event with no | ⟨no, -⟩ <;> cases no
  · rintro q rfl
    rcases event with no | ⟨no, -⟩ <;> cases no

theorem ring_step (inv : RingInv w) {e : RingEvent} (run : w.step e = some w') :
    RingInv w' ∧ StepServed w e w' := by
  cases e with
  | rw p req =>
      simp only [Rings.step] at run
      split at run
      · rename_i able
        refine ring_ask_step inv ?_ (fun q _ => able.2 q) (Or.inl rfl) run
        intro b i0 i1 i2 no
        rw [able.1] at no
        cases no
      · cases run
  | retry p =>
      simp only [Rings.step] at run
      split at run
      · rename_i req at_
        refine ring_ask_step inv ?_ ?_ (Or.inr ⟨rfl, at_⟩) run
        · intro b i0 i1 i2 no
          rw [at_] at no
          cases no
        · intro q differ
          exact inv.desc.bufs p q req.b (Ne.symm differ) (by rw [at_]; rfl)
      · cases run
  | recheck p =>
      simp only [Rings.step] at run
      split at run
      · rename_i b i0 i1 i2 at_
        obtain ⟨s, out, kept, returned⟩ := inv.recheck at_
        obtain ⟨pend, done, flow⟩ := inv.flow
        rw [out] at run
        obtain rfl := Option.some.inj run
        refine ⟨kept, fun _ _ no => (by rcases no with no | no <;> cases no), ?_, ?_, ?_⟩
        · intro me no
          cases no
        · refine fun _ => ⟨rfl, ?_⟩
          intro c busy
          rcases checkDone_cases (s := w.sys) (p := p) (b := b)
            (inv.desc.chains p b i0 i1 i2 at_) with ⟨-, checked⟩ | ⟨-, checked⟩
          · obtain rfl := Option.some.inj (out.symm.trans checked)
            exact busy
          · obtain rfl := Option.some.inj (out.symm.trans checked)
            exact busy
        · intro q same left
          cases same
          have member := returned left
          exact ⟨flow.answered ▸ List.mem_append_left _ member, member⟩
      · cases run
  | take =>
      simp only [Rings.step, Option.map_eq_some_iff] at run
      obtain ⟨d, out, rfl⟩ := run
      refine ⟨inv.take out, fun _ _ no => (by rcases no with no | no <;> cases no), ?_, ?_, ?_⟩
      · intro me no
        cases no
      · refine fun _ => ⟨rfl, fun b busy => ?_⟩
        unfold VDisk.take at out
        split at out
        · cases out
        · obtain rfl := Option.some.inj out
          exact busy
      · intro p no
        cases no
  | answer id =>
      simp only [Rings.step, Option.map_eq_some_iff] at run
      obtain ⟨d, out, rfl⟩ := run
      refine ⟨inv.answer out, fun _ _ no => (by rcases no with no | no <;> cases no), ?_, ?_, ?_⟩
      · intro me no
        cases no
      · refine fun _ => ⟨rfl, fun b busy => ?_⟩
        unfold VDisk.answer at out
        split at out
        · obtain rfl := Option.some.inj out
          exact busy
        · cases out
      · intro p no
        cases no
  | intr me =>
      have more : w.sys.disk.usedIdx ≠ w.sys.disk.usedRingIdx := by
        intro same
        simp [Rings.step, Rings.intrTurn, same] at run
      obtain ⟨w'', out, kept, completes⟩ :
          ∃ w'', w.intrTurn me = some w'' ∧ RingInv w'' ∧ ∃ r, Completes w w'' r := inv.intr more
      obtain rfl := Option.some.inj (out.symm.trans run)
      refine ⟨kept, fun _ _ no => (by rcases no with no | no <;> cases no), fun _ _ =>
        completes, ?_, ?_⟩
      · intro no
        exact absurd rfl (no me)
      · intro p no
        cases no

/-- The protocol of the driver and the device, over every interleaving of the calls, the
device's answers and the turns of the interrupt's loop. -/
theorem driver_protocol (r : Run Rings.step) (start : r.state 0 = Rings.boot) :
    (∀ i, i ≤ r.len → Served (r.state i)) ∧
    (∀ i, i < r.len → StepServed (r.state i) (r.event i) (r.state (i + 1))) := by
  have invariant := r.invariant RingInv (start ▸ boot_ringInv)
    fun _ _ _ run inv => (ring_step inv run).1
  refine ⟨fun i within => (invariant i within).served, ?_⟩
  intro i within
  exact (ring_step (invariant i (Nat.le_of_lt within)) (r.next i within)).2

def swapped : List RingEvent :=
  [.rw 0 ⟨0, 1, false⟩, .rw 1 ⟨1, 2, true⟩, .rw 2 ⟨2, 3, true⟩, .take, .take, .answer 3, .intr none,
    .recheck 1, .retry 2, .answer 0, .intr (some 3), .recheck 0]

theorem swapped_served : ∃ r : Run Rings.step, r.state 0 = Rings.boot ∧ r.len = 12 ∧
    (∀ i, i ≤ r.len → Served (r.state i)) ∧
    ∀ i, i < r.len → StepServed (r.state i) (r.event i) (r.state (i + 1)) := by
  have runs : (exec Rings.step Rings.boot swapped).isSome := by decide +kernel
  have start := Run.ofEvents_zero Rings.step Rings.boot swapped .take runs
  exact ⟨Run.ofEvents Rings.step Rings.boot swapped .take runs, start, rfl,
    driver_protocol _ start⟩

end Runs

end Xv6Fcfs.Disk
