import Xv6Fcfs.Console.Discipline

/-!
# What the readers of the console get

Each committed byte goes to one call, in order; a call ends at a newline, and an end-of-file
character is what one call returns nothing for.  This is so as long as no call reaches a byte
that it cannot store, since `consoleread` takes a byte before it tries.
-/

set_option autoImplicit false

namespace Xv6Fcfs.Console

open Xv6Fcfs.Lib

def Pc.call : Pc → Option Call
  | .outside => none
  | .lock k => some k
  | .sleep k => some k

def bytesOf (taken : List Taken) (call : Nat) : List UInt8 :=
  (taken.filter fun t => t.call = call).map Taken.byte

def Returned.zero (x : Returned) : Bool := 0 < x.len ∧ x.result = 0

def Returned.eof (x : Returned) : List UInt8 := if x.zero then [ctrl 'D'] else []

structure Underway (s : State) (k : Call) : Prop where
  known : k.id < s.calls
  length : k.got.length + k.n = k.target
  plain : newline ∉ k.got
  data : ctrl 'D' ∉ k.got
  bytes : bytesOf s.cons.taken k.id = k.got

structure Finished (s : State) (x : Returned) : Prop where
  known : x.call < s.calls
  result : (x.result = -1 ∧ x.killed = true) ∨ x.result = x.got.length
  line : newline ∉ x.got.dropLast
  data : ctrl 'D' ∉ x.got
  bytes : bytesOf s.cons.taken x.call = x.got ++ x.eof

structure Disciplined (s : State) (line : Line) : Prop where
  holds : ∃ ready, Holds s.cons ready line.edit
  committed : s.cons.committed = line.committed
  apart : ∀ p q k k', (s.pc p).call = some k → (s.pc q).call = some k' → k.id = k'.id → p = q
  underway : ∀ p k, (s.pc p).call = some k → Underway s k
  pending : ∀ p k, (s.pc p).call = some k → k.id ∉ s.returned.map Returned.call
  finished : ∀ x ∈ s.returned, Finished s x
  once : (s.returned.map Returned.call).Nodup
  owned : ∀ t ∈ s.cons.taken, (∃ p k, (s.pc p).call = some k ∧ k.id = t.call) ∨
    t.call ∈ s.returned.map Returned.call
  eofs : (s.cons.taken.filter fun t => t.byte = ctrl 'D').map Taken.call =
    (s.returned.filter Returned.zero).map Returned.call

section Lists
variable {taken : List Taken} {k : Call} {l : List UInt8} {id : Nat}

theorem bytesOf_own : bytesOf (taken ++ k.takes l) k.id = bytesOf taken k.id ++ l := by
  have all : ((k.takes l).filter fun t => t.call = k.id) = k.takes l := by
    rw [List.filter_eq_self]
    intro t inside
    obtain ⟨b, -, rfl⟩ := List.mem_map.mp inside
    simp
  have back : (k.takes l).map Taken.byte = l := by
    rw [Call.takes, List.map_map]
    exact List.map_id l
  rw [bytesOf, List.filter_append, List.map_append, all, back]
  rfl

theorem bytesOf_other (differ : id ≠ k.id) : bytesOf (taken ++ k.takes l) id = bytesOf taken id := by
  have none : ((k.takes l).filter fun t => t.call = id) = [] := by
    rw [List.filter_eq_nil_iff]
    intro t inside
    obtain ⟨b, -, rfl⟩ := List.mem_map.mp inside
    simpa using Ne.symm differ
  rw [bytesOf, List.filter_append, none, List.append_nil]
  rfl

theorem eofs_takes {lost : List UInt8} (data : ctrl 'D' ∉ l) :
    ((k.takes (l ++ lost)).filter fun t => t.byte = ctrl 'D').map Taken.call =
      ((k.takes lost).filter fun t => t.byte = ctrl 'D').map Taken.call := by
  have none : ((k.takes l).filter fun t => t.byte = ctrl 'D') = [] := by
    rw [List.filter_eq_nil_iff]
    intro t inside
    obtain ⟨b, mem, rfl⟩ := List.mem_map.mp inside
    have differ : b ≠ ctrl 'D' := fun same => data (same ▸ mem)
    simpa using differ
  rw [Call.takes, List.map_append, List.filter_append, ← Call.takes, none, List.nil_append]
  rfl

end Lists

section Steps
variable {s s' : State} {line : Line} {p : Nat} {k : Call}

theorem call_wakeReader (pc : Pc) : (wakeReader pc).call = pc.call := by
  cases pc <;> rfl

theorem Disciplined.still (ok : Disciplined s line) {c : Cons} {pcs : Nat → Pc} {killed : Nat → Bool}
    {line' : Line} (typed : Typed s.cons c line') (calls : ∀ p, (pcs p).call = (s.pc p).call) :
    Disciplined { s with cons := c, pc := pcs, killed := killed } line' := by
  have taken := typed.taken
  refine ⟨typed.holds, typed.committed, ?_, ?_, ?_, ?_, ok.once, ?_, ?_⟩
  · intro p q k k' here there
    rw [calls] at here there
    exact ok.apart p q k k' here there
  · intro p k here
    rw [calls] at here
    have underway := ok.underway p k here
    refine ⟨underway.known, underway.length, underway.plain, underway.data, ?_⟩
    show bytesOf c.taken k.id = k.got
    rw [taken]
    exact underway.bytes
  · intro p k here
    rw [calls] at here
    exact ok.pending p k here
  · intro x inside
    have finished := ok.finished x inside
    refine ⟨finished.known, finished.result, finished.line, finished.data, ?_⟩
    show bytesOf c.taken x.call = _
    rw [taken]
    exact finished.bytes
  · intro t inside
    simp only [taken] at inside
    simp only [calls]
    exact ok.owned t inside
  · simp only [taken]
    exact ok.eofs

theorem Disciplined.enter (ok : Disciplined s line) (outside : s.pc p = .outside)
    (new : k.id = s.calls) (start : k.got = []) (length : k.n = k.target) :
    Disciplined { s with pc := upd s.pc p (.lock k), calls := s.calls + 1 } line := by
  have cases' := upd_cases s.pc p (.lock k)
  have older : ∀ t ∈ s.cons.taken, t.call < s.calls := by
    intro t inside
    rcases ok.owned t inside with ⟨q, k', here, same⟩ | back
    · rw [← same]
      exact (ok.underway q k' here).known
    · obtain ⟨x, mem, same⟩ := List.mem_map.mp back
      rw [← same]
      exact (ok.finished x mem).known
  have nothing : bytesOf s.cons.taken s.calls = [] := by
    rw [bytesOf, List.map_eq_nil_iff, List.filter_eq_nil_iff]
    intro t inside
    have less := older t inside
    simp only [decide_eq_true_eq]
    omega
  refine ⟨ok.holds, ok.committed, ?_, ?_, ?_, ?_, ok.once, ?_, ok.eofs⟩
  · intro a b ka kb here there same
    rcases cases' a with ⟨ea, na⟩ | ⟨-, oa⟩ <;> rcases cases' b with ⟨eb, nb⟩ | ⟨-, ob⟩
    · rw [ea, eb]
    · simp only [na, Pc.call, Option.some.injEq] at here
      simp only [ob] at there
      have known := (ok.underway b kb there).known
      rw [← same, ← here, new] at known
      omega
    · simp only [nb, Pc.call, Option.some.injEq] at there
      simp only [oa] at here
      have known := (ok.underway a ka here).known
      rw [same, ← there, new] at known
      omega
    · simp only [oa] at here
      simp only [ob] at there
      exact ok.apart a b ka kb here there same
  · intro q k' here
    rcases cases' q with ⟨-, now⟩ | ⟨-, old⟩
    · simp only [now, Pc.call, Option.some.injEq] at here
      subst here
      refine ⟨by simp only [new]; omega, by rw [start, length]; simp, ?_, ?_, ?_⟩
      · rw [start]
        exact List.not_mem_nil
      · rw [start]
        exact List.not_mem_nil
      · rw [start, new]
        exact nothing
    · simp only [old] at here
      have underway := ok.underway q k' here
      exact ⟨Nat.lt_succ_of_lt underway.known, underway.length, underway.plain, underway.data,
        underway.bytes⟩
  · intro q k' here
    rcases cases' q with ⟨-, now⟩ | ⟨-, old⟩
    · simp only [now, Pc.call, Option.some.injEq] at here
      subst here
      intro back
      obtain ⟨x, mem, same⟩ := List.mem_map.mp back
      have known := (ok.finished x mem).known
      omega
    · simp only [old] at here
      exact ok.pending q k' here
  · intro x inside
    have finished := ok.finished x inside
    exact ⟨Nat.lt_succ_of_lt finished.known, finished.result, finished.line, finished.data,
      finished.bytes⟩
  · intro t inside
    rcases ok.owned t inside with ⟨q, k', here, same⟩ | back
    · refine Or.inl ⟨q, k', ?_, same⟩
      have differ : q ≠ p := by
        rintro rfl
        rw [outside] at here
        cases here
      simp only [upd_of_ne differ]
      exact here
    · exact Or.inr back

theorem Underway.other (underway : Underway s k) {k' : Call} {l : List UInt8} {c : Cons}
    (taken : c.taken = s.cons.taken ++ k'.takes l) (differ : k.id ≠ k'.id) (pcs : Nat → Pc)
    (returned : List Returned) :
    Underway { s with cons := c, pc := pcs, returned := returned } k := by
  refine ⟨underway.known, underway.length, underway.plain, underway.data, ?_⟩
  show bytesOf c.taken k.id = k.got
  rw [taken, bytesOf_other differ]
  exact underway.bytes

theorem Finished.other {x : Returned} (finished : Finished s x) {l : List UInt8} {c : Cons}
    (taken : c.taken = s.cons.taken ++ k.takes l) (differ : x.call ≠ k.id) (pcs : Nat → Pc)
    (returned : List Returned) :
    Finished { s with cons := c, pc := pcs, returned := returned } x := by
  refine ⟨finished.known, finished.result, finished.line, finished.data, ?_⟩
  show bytesOf c.taken x.call = _
  rw [taken, bytesOf_other differ]
  exact finished.bytes

theorem Disciplined.sleep (ok : Disciplined s line) (here : s.pc p = .lock k) {c : Cons}
    {data : List UInt8} {left : Nat} (holds : ∃ ready, Holds c ready line.edit)
    (committed : c.committed = s.cons.committed) (taken : c.taken = s.cons.taken ++ k.takes data)
    (bytes : ctrl 'D' ∉ data) (plain : newline ∉ data) (length : left + data.length = k.n) :
    Disciplined
      { s with cons := c, pc := upd s.pc p (.sleep { k with n := left, got := k.got ++ data }) }
      line := by
  have mine : (s.pc p).call = some k := by rw [here]; rfl
  have underway := ok.underway p k mine
  have cases' := upd_cases s.pc p (.sleep { k with n := left, got := k.got ++ data })
  -- the identities of the calls are what they were
  have before : ∀ q k',
    (upd s.pc p (.sleep { k with n := left, got := k.got ++ data }) q).call = some k' →
      ∃ k'', (s.pc q).call = some k'' ∧ k''.id = k'.id := by
    intro q k' there
    rcases cases' q with ⟨rfl, now⟩ | ⟨-, old⟩
    · rw [now] at there
      obtain rfl := Option.some.inj there
      exact ⟨k, mine, rfl⟩
    · rw [old] at there
      exact ⟨k', there, rfl⟩
  refine ⟨holds, committed.trans ok.committed, ?_, ?_, ?_, ?_, ok.once, ?_, ?_⟩
  · intro a b ka kb first second same
    obtain ⟨xa, wasA, idA⟩ := before a ka first
    obtain ⟨xb, wasB, idB⟩ := before b kb second
    exact ok.apart a b xa xb wasA wasB (by rw [idA, idB, same])
  · intro q k' there
    rcases cases' q with ⟨rfl, now⟩ | ⟨differ, old⟩
    · simp only [now] at there
      obtain rfl := Option.some.inj there
      refine ⟨underway.known, ?_, ?_, ?_, ?_⟩
      · have whole : k.got.length + k.n = k.target := underway.length
        show (k.got ++ data).length + left = k.target
        rw [List.length_append]
        omega
      · show newline ∉ k.got ++ data
        rw [List.mem_append, not_or]
        exact ⟨underway.plain, plain⟩
      · show ctrl 'D' ∉ k.got ++ data
        rw [List.mem_append, not_or]
        exact ⟨underway.data, bytes⟩
      · show bytesOf c.taken k.id = k.got ++ data
        rw [taken, bytesOf_own, underway.bytes]
    · simp only [old] at there
      refine (ok.underway q k' there).other taken ?_ _ _
      exact fun same => differ (ok.apart q p k' k there mine same)
  · intro q k' there
    obtain ⟨k'', was, same⟩ := before q k' there
    rw [← same]
    exact ok.pending q k'' was
  · intro x inside
    refine (ok.finished x inside).other taken ?_ _ _
    exact fun same => ok.pending p k mine (List.mem_map.mpr ⟨x, inside, same⟩)
  · intro t inside
    have mineNow : (upd s.pc p (.sleep { k with n := left, got := k.got ++ data }) p).call =
        some { k with n := left, got := k.got ++ data } := by
      rw [upd_self]
      rfl
    simp only [taken, List.mem_append] at inside
    rcases inside with old | new
    · rcases ok.owned t old with ⟨q, k', there, same⟩ | back
      · by_cases self : q = p
        · subst self
          rw [mine] at there
          obtain rfl := Option.some.inj there
          exact Or.inl ⟨q, _, mineNow, same⟩
        · refine Or.inl ⟨q, k', ?_, same⟩
          simp only [upd_of_ne self]
          exact there
      · exact Or.inr back
    · obtain ⟨b, -, rfl⟩ := List.mem_map.mp new
      exact Or.inl ⟨p, _, mineNow, rfl⟩
  · have none : ((k.takes (_ ++ [])).filter fun t => t.byte = ctrl 'D').map Taken.call = [] :=
      eofs_takes bytes
    rw [List.append_nil] at none
    show (c.taken.filter _).map _ = _
    rw [taken, List.filter_append, List.map_append, none, ok.eofs]
    exact List.append_nil _

theorem Disciplined.ret (ok : Disciplined s line) (here : s.pc p = .lock k) {c : Cons}
    {data : List UInt8} {x : Returned} (holds : ∃ ready, Holds c ready line.edit)
    (committed : c.committed = s.cons.committed)
    (taken : c.taken = s.cons.taken ++ k.takes (data ++ x.eof))
    (bytes : ctrl 'D' ∉ data) (call : x.call = k.id) (got : x.got = k.got ++ data)
    (plain : newline ∉ (k.got ++ data).dropLast)
    (result : (x.result = -1 ∧ x.killed = true) ∨ x.result = (k.got ++ data).length) :
    Disciplined { s with
      cons := c, pc := upd s.pc p .outside, returned := s.returned ++ [x] } line := by
  have mine : (s.pc p).call = some k := by rw [here]; rfl
  have underway := ok.underway p k mine
  have cases' := upd_cases s.pc p .outside
  -- who is still in a call was in it and is another process
  have before : ∀ q k', (upd s.pc p .outside q).call = some k' → q ≠ p ∧ (s.pc q).call = some k' := by
    intro q k' there
    rcases cases' q with ⟨rfl, now⟩ | ⟨differ, old⟩
    · rw [now] at there
      cases there
    · rw [old] at there
      exact ⟨differ, there⟩
  have ids : (s.returned ++ [x]).map Returned.call = s.returned.map Returned.call ++ [k.id] := by
    rw [List.map_append, ← call]
    rfl
  refine ⟨holds, committed.trans ok.committed, ?_, ?_, ?_, ?_, ?_, ?_, ?_⟩
  · intro a b ka kb first second
    exact ok.apart a b ka kb (before a ka first).2 (before b kb second).2
  · intro q k' there
    obtain ⟨differ, was⟩ := before q k' there
    refine (ok.underway q k' was).other taken ?_ _ _
    exact fun same => differ (ok.apart q p k' k was mine same)
  · intro q k' there
    obtain ⟨differ, was⟩ := before q k' there
    rw [ids, List.mem_append, List.mem_singleton, not_or]
    exact ⟨ok.pending q k' was, fun same => differ (ok.apart q p k' k was mine same)⟩
  · intro y inside
    rcases List.mem_append.mp inside with old | new
    · refine (ok.finished y old).other taken ?_ _ _
      exact fun same => ok.pending p k mine (List.mem_map.mpr ⟨y, old, same⟩)
    · obtain rfl := List.mem_singleton.mp new
      refine ⟨?_, ?_, ?_, ?_, ?_⟩
      · rw [call]
        exact underway.known
      · rw [got]
        exact result
      · rw [got]
        exact plain
      · rw [got, List.mem_append, not_or]
        exact ⟨underway.data, bytes⟩
      · show bytesOf c.taken y.call = y.got ++ y.eof
        rw [taken, call, bytesOf_own, underway.bytes, got, List.append_assoc]
  · show ((s.returned ++ [x]).map Returned.call).Nodup
    rw [ids, List.nodup_append]
    refine ⟨ok.once, by simp, ?_⟩
    intro a old b new same
    rw [List.mem_singleton.mp new] at same
    exact ok.pending p k mine (same ▸ old)
  · intro t inside
    simp only [ids]
    simp only [taken, List.mem_append] at inside
    rcases inside with old | new
    · rcases ok.owned t old with ⟨q, k', there, same⟩ | back
      · by_cases self : q = p
        · subst self
          rw [mine] at there
          obtain rfl := Option.some.inj there
          exact Or.inr (List.mem_append.mpr (Or.inr (List.mem_singleton.mpr same.symm)))
        · refine Or.inl ⟨q, k', ?_, same⟩
          simp only [upd_of_ne self]
          exact there
      · exact Or.inr (List.mem_append_left _ back)
    · obtain ⟨b, -, rfl⟩ := List.mem_map.mp new
      exact Or.inr (List.mem_append.mpr (Or.inr (List.mem_singleton.mpr rfl)))
  · show (c.taken.filter _).map _ = ((s.returned ++ [x]).filter _).map _
    rw [taken, List.filter_append, List.map_append, eofs_takes bytes, ok.eofs, List.filter_append,
      List.map_append]
    congr 1
    cases zero : x.zero with
    | true => simp [Returned.eof, zero, Call.takes, call]
    | false => simp [Returned.eof, zero, Call.takes]

def Faulty (s : State) : Event → Prop
  | .go p =>
      match s.pc p with
      | .lock k => ∃ j, j < (wanted k.n s.cons.ready).length ∧ k.dst (k.target - k.n + j) = false
      | _ => False
  | _ => False

theorem readTurn_disciplined (ok : Disciplined s line) (here : s.pc p = .lock k)
    (good : ¬ Faulty s (.go p)) : Disciplined (readTurn s p k) line := by
  have underway := ok.underway p k (by rw [here]; rfl)
  have length := underway.length
  obtain ⟨ready, holds⟩ := ok.holds
  obtain ⟨data, lost, reads⟩ := readLoop_reads k (s.killed p) line.edit k.n k.got s.cons ready
    (by omega) holds
  have short := reads.length
  have ended := reads.ended
  have taken := reads.taken
  have target : k.target = k.len.toNat := rfl
  have clean : newline ∉ data → newline ∉ (k.got ++ data).dropLast := by
    intro plain inside
    rcases List.mem_append.mp (List.dropLast_subset _ inside) with old | new
    · exact underway.plain old
    · exact plain new
  have total : (k.target : Int) - (k.n - data.length : Nat) = (k.got ++ data).length := by
    rw [List.length_append]
    omega
  unfold readTurn
  generalize readLoop k (s.killed p) k.n k.got s.cons = result at ended reads taken ⊢
  obtain ⟨out, c⟩ := result
  simp only at ended taken ⊢
  have ret : ∀ result : Int, ((result = -1 ∧ s.killed p = true) ∨ result = (k.got ++ data).length) →
      newline ∉ (k.got ++ data).dropLast →
        lost = Returned.eof ⟨k.id, k.len, k.got ++ data, result, s.killed p⟩ →
      Disciplined { s with
        cons := c
        pc := upd s.pc p .outside
        returned := s.returned ++ [⟨k.id, k.len, k.got ++ data, result, s.killed p⟩] } line := by
    intro result amount plain lost'
    rw [lost'] at taken
    exact ok.ret here reads.holds reads.committed taken reads.bytes rfl rfl plain amount
  have positive : 0 < (k.got ++ data).length →
      [] = Returned.eof ⟨k.id, k.len, k.got ++ data, k.target - (k.n - data.length : Nat),
        s.killed p⟩ := by
    intro some
    have no : ¬ ((0 : Int) < k.len ∧ (k.target : Int) - (k.n - data.length : Nat) = 0) := by omega
    simp only [Returned.eof, Returned.zero, no, decide_false]
    rfl
  cases ended with
  | slept some plain =>
      rw [List.append_nil] at taken
      exact ok.sleep here reads.holds reads.committed taken reads.bytes plain (by omega)
  | killed dead some plain =>
      exact ret (-1) (Or.inl ⟨rfl, dead⟩) (clean plain) (by simp [Returned.eof, Returned.zero])
  | whole none plain =>
      refine ret _ (Or.inr total) (clean plain) ?_
      have no : ¬ ((0 : Int) < k.len ∧ (k.target : Int) - (k.n - data.length : Nat) = 0) := by omega
      simp only [Returned.eof, Returned.zero, no, decide_false]
      rfl
  | line front last plain =>
      refine ret _ (Or.inr total) ?_ (positive ?_)
      · rw [last, ← List.append_assoc, List.dropLast_concat, List.mem_append, not_or]
        exact ⟨underway.plain, plain⟩
      · rw [last]
        simp
  | eof first some plain =>
      refine ret _ (Or.inr total) (clean plain) ?_
      have yes : (0 : Int) < k.len ∧ (k.target : Int) - (k.n - data.length : Nat) = 0 := by omega
      simp only [Returned.eof, Returned.zero, yes, and_self, decide_true]
      rfl
  | later before some plain =>
      refine ret _ (Or.inr total) (clean plain) (positive ?_)
      rw [List.length_append]
      omega
  | fault b datum bad some plain =>
      refine absurd ?_ good
      simp only [Faulty, here, holds.ready_eq]
      refine ⟨data.length, reads.more ⟨b, List.mem_singleton.mpr rfl, datum⟩, ?_⟩
      rw [show k.target - k.n + data.length = k.target - (k.n - data.length) by omega]
      exact bad

def Line.after (line : Line) (s : State) : Event → Line
  | .consoleintr b => line.type s.cons.taken.length b
  | _ => line

theorem step_disciplined {e : Event} (ok : Disciplined s line) (good : ¬ Faulty s e)
    (run : step s e = some s') : Disciplined s' (line.after s e) := by
  cases e with
  | consoleintr b =>
      simp only [step, Option.some.injEq] at run
      subst run
      obtain ⟨ready, holds⟩ := ok.holds
      have typed := input_typed holds b
      rw [ok.committed] at typed
      refine ok.still typed ?_
      intro p
      cases (s.cons.input b).2 with
      | true => exact call_wakeReader (s.pc p)
      | false => rfl
  | consoleread p dst n =>
      simp only [step] at run
      split at run
      next outside =>
        obtain rfl := Option.some.inj run
        exact ok.enter outside rfl rfl rfl
      · cases run
  | go p =>
      simp only [step] at run
      split at run
      next k here =>
        obtain rfl := Option.some.inj run
        exact readTurn_disciplined ok here good
      · cases run
  | kkill p =>
      obtain rfl := Option.some.inj run
      obtain ⟨ready, holds⟩ := ok.holds
      refine ok.still ⟨⟨ready, holds⟩, ok.committed, rfl⟩ ?_
      intro q
      rcases upd_cases s.pc p (wakeReader (s.pc p)) q with ⟨rfl, now⟩ | ⟨-, old⟩
      · rw [now]
        exact call_wakeReader (s.pc q)
      · rw [old]

theorem boot_disciplined (killed : Nat → Bool) : Disciplined (boot killed) ⟨[], []⟩ where
  holds := ⟨[], Queued.nil (Nat.two_pow_pos 32), rfl, rfl, List.not_mem_nil⟩
  committed := rfl
  apart := fun _ _ _ _ no => by cases no
  underway := fun _ _ no => by cases no
  pending := fun _ _ no => by cases no
  finished := fun _ no => by cases no
  once := List.nodup_nil
  owned := fun _ no => by cases no
  eofs := rfl

end Steps

/-! ## Runs -/

/-- The line after the first `i` events: all keys so far, each at its time. -/
def lineAt (r : Run step) : Nat → Line
  | 0 => ⟨[], []⟩
  | i + 1 => (lineAt r i).after (r.state i) (r.event i)

theorem run_disciplined (r : Run step) (killed : Nat → Bool) (start : r.state 0 = boot killed) :
    ∀ i, i ≤ r.len → (∀ j, j < i → ¬ Faulty (r.state j) (r.event j)) →
      Disciplined (r.state i) (lineAt r i) := by
  intro i
  induction i with
  | zero =>
      intro _ _
      rw [start]
      exact boot_disciplined killed
  | succ i ih =>
      intro within good
      have ok := ih (by omega) fun j less => good j (by omega)
      exact step_disciplined ok (good i (by omega)) (r.next i (by omega))

def Event.Writable : Event → Prop
  | .consoleread _ dst n => ∀ j : Nat, (j : Int) < n → dst j = true
  | _ => True

/-- The destinations of the calls under way can be written, and no more is left than was
asked for. -/
def Calm (s : State) : Prop :=
  ∀ p k, (s.pc p).call = some k → k.n ≤ k.target ∧ ∀ j, j < k.target → k.dst j = true

theorem wanted_length (n : Nat) (l : List UInt8) : (wanted n l).length ≤ n := by
  induction n generalizing l with
  | zero => exact Nat.le_refl 0
  | succ n ih =>
      cases l with
      | nil => exact Nat.zero_le _
      | cons b l =>
          rw [wanted]
          split
          · exact Nat.zero_le _
          · split
            · exact Nat.succ_le_succ (Nat.zero_le n)
            · exact Nat.succ_le_succ (ih l)

theorem Calm.not_faulty {s : State} (calm : Calm s) (e : Event) : ¬ Faulty s e := by
  cases e with
  | go p =>
      cases here : s.pc p with
      | lock k =>
          obtain ⟨left, writable⟩ := calm p k (by rw [here]; rfl)
          simp only [Faulty, here]
          rintro ⟨j, less, bad⟩
          have short := wanted_length k.n s.cons.ready
          rw [writable _ (by omega)] at bad
          cases bad
      | outside => simp [Faulty, here]
      | sleep k => simp [Faulty, here]
  | _ => exact fun no => no

theorem readLoop_calm (k : Call) (killed : Bool) :
    ∀ (n : Nat) (got : List UInt8) (c : Cons) (k' : Call),
    (readLoop k killed n got c).1 = .sleep k' → k'.n ≤ n ∧ k'.dst = k.dst ∧ k'.target = k.target := by
  intro n
  induction n with
  | zero => intro got c k' slept; cases slept
  | succ n ih =>
      intro got c k' slept
      rw [readLoop] at slept
      split at slept
      · cases killed with
        | true => cases slept
        | false =>
            cases slept
            exact ⟨Nat.le_refl _, rfl, rfl⟩
      · simp only at slept
        split at slept
        · cases slept
        · split at slept
          · split at slept
            · cases slept
            · obtain ⟨less, rest⟩ := ih _ _ k' slept
              exact ⟨Nat.le_succ_of_le less, rest⟩
          · cases slept

theorem step_calm {s s' : State} {e : Event} (calm : Calm s) (writable : e.Writable)
    (run : step s e = some s') : Calm s' := by
  have woken : ∀ p k, (wakeReader (s.pc p)).call = some k →
      k.n ≤ k.target ∧ ∀ j, j < k.target → k.dst j = true := by
    intro p k here
    rw [call_wakeReader] at here
    exact calm p k here
  cases e with
  | consoleintr b =>
      simp only [step, Option.some.injEq] at run
      subst run
      intro p k here
      cases wakes : (s.cons.input b).2 with
      | true =>
          simp only [wakes] at here
          exact woken p k here
      | false =>
          simp only [wakes] at here
          exact calm p k here
  | consoleread p dst n =>
      simp only [step] at run
      split at run
      · obtain rfl := Option.some.inj run
        intro q k here
        rcases upd_cases s.pc p (.lock ⟨s.calls, dst, n, n.toNat, []⟩) q with ⟨-, now⟩ | ⟨-, old⟩
        · simp only [now] at here
          obtain rfl := Option.some.inj here
          refine ⟨Nat.le_refl _, fun j less => writable j ?_⟩
          have target : (Call.mk s.calls dst n n.toNat []).target = n.toNat := rfl
          omega
        · simp only [old] at here
          exact calm q k here
      · cases run
  | go p =>
      simp only [step] at run
      split at run
      next k here =>
        obtain rfl := Option.some.inj run
        obtain ⟨left, stores⟩ := calm p k (by rw [here]; rfl)
        have slept := readLoop_calm k (s.killed p) k.n k.got s.cons
        unfold readTurn
        generalize readLoop k (s.killed p) k.n k.got s.cons = result at slept ⊢
        obtain ⟨out, c⟩ := result
        intro q k' there
        cases out with
        | sleep k'' =>
            simp only at there
            rcases upd_cases s.pc p (.sleep k'') q with ⟨-, now⟩ | ⟨-, old⟩
            · rw [now] at there
              obtain rfl := Option.some.inj there
              obtain ⟨less, same, target⟩ := slept k'' rfl
              rw [target, same]
              exact ⟨Nat.le_trans less left, stores⟩
            · rw [old] at there
              exact calm q k' there
        | ret got result =>
            simp only at there
            rcases upd_cases s.pc p .outside q with ⟨-, now⟩ | ⟨-, old⟩
            · rw [now] at there
              cases there
            · rw [old] at there
              exact calm q k' there
      · cases run
  | kkill p =>
      obtain rfl := Option.some.inj run
      intro q k here
      rcases upd_cases s.pc p (wakeReader (s.pc p)) q with ⟨-, now⟩ | ⟨-, old⟩
      · simp only [now] at here
        exact woken p k here
      · simp only [old] at here
        exact calm q k here

theorem run_calm (r : Run step) (killed : Nat → Bool) (start : r.state 0 = boot killed)
    (writable : ∀ i, i < r.len → (r.event i).Writable) : ∀ i, i ≤ r.len → Calm (r.state i) := by
  refine r.invariant_of (fun _ e => e.Writable) Calm ?_ ?_ writable
  · rw [start]
    exact fun _ _ no => by cases no
  · exact fun s e s' run good calm => step_calm calm good run

/-- The readers get what was typed. -/
theorem line_discipline (r : Run step) (killed : Nat → Bool) (start : r.state 0 = boot killed)
    (writable : ∀ i, i < r.len → (r.event i).Writable) (i : Nat) (within : i ≤ r.len) :
    let s := r.state i
    let c := s.cons
    -- the three indices
    (minus32 c.w c.r ≤ minus32 c.e c.r ∧ minus32 c.e c.r ≤ INPUT_BUF_SIZE ∧ newline ∉ c.edited) ∧
    -- the stream committed to the readers, and the line under the cursor
    (c.committed = (lineAt r i).committed ∧ c.edited = (lineAt r i).edit) ∧
    -- it is taken in order, and what is not taken is in the ring
    (c.taken.map Taken.byte <+: c.committed ∧
      c.committed.length = c.taken.length + minus32 c.w c.r) ∧
    -- each byte taken belongs to one call, which has stored it unless it is an end of file
    (∀ t ∈ c.taken, (∃ p k, (s.pc p).call = some k ∧ k.id = t.call) ∨
      t.call ∈ s.returned.map Returned.call) ∧
    (∀ p k, (s.pc p).call = some k → bytesOf c.taken k.id = k.got) ∧
    (∀ x ∈ s.returned, bytesOf c.taken x.call = x.got ++ x.eof ∧ ctrl 'D' ∉ x.got ∧
      newline ∉ x.got.dropLast ∧
      ((x.result = -1 ∧ x.killed = true) ∨ x.result = x.got.length)) ∧
    -- each end of file is one call's return of 0
    ((c.taken.filter fun t => t.byte = ctrl 'D').map Taken.call =
        (s.returned.filter Returned.zero).map Returned.call ∧
      (s.returned.map Returned.call).Nodup) := by
  have ok := run_disciplined r killed start i within fun j less =>
    (run_calm r killed start writable j (by omega)).not_faulty (r.event j)
  obtain ⟨ready, holds⟩ := ok.holds
  obtain ⟨toW, -, toE⟩ := holds.distances
  have short := holds.bounds.1
  have size : INPUT_BUF_SIZE = 128 := rfl
  refine ⟨⟨?_, ?_, ?_⟩, ⟨ok.committed, holds.edited⟩, ⟨⟨ready, holds.stream.symm⟩, ?_⟩,
    ok.owned, ?_, ?_,
    ok.eofs, ok.once⟩
  · rw [toW, toE]
    omega
  · rw [toE, size]
    exact short
  · rw [holds.edited]
    exact holds.plain
  · rw [toW, holds.stream, List.length_append, List.length_map]
  · exact fun p k here => (ok.underway p k here).bytes
  · intro x inside
    have finished := ok.finished x inside
    exact ⟨finished.bytes, finished.data, finished.line, finished.result⟩

/-- Process 1 reads a line while `a`, a backspace, `b`, return and an end of file are typed,
and reads again. -/
def typing : List Event :=
  [.consoleread 1 (fun _ => true) 10, .go 1, .consoleintr 97, .consoleintr (ctrl 'H'), .consoleintr 98,
    .consoleintr carriageReturn, .go 1, .consoleintr (ctrl 'D'),
      .consoleread 1 (fun _ => true) 10, .go 1]

theorem typing_runs : (exec step (boot fun _ => false) typing).isSome := by
  decide +kernel

def typingRun : Run step := Run.ofEvents step (boot fun _ => false) typing (.go 0) typing_runs

theorem typing_writable : ∀ i, i < typingRun.len → (typingRun.event i).Writable := by
  have all : ∀ e ∈ typing, e.Writable := by simp [typing, Event.Writable]
  intro i less
  exact all _ (Run.ofEvents_mem step (boot fun _ => false) typing (.go 0) typing_runs i less)

theorem typing_discipline : newline ∉ (typingRun.state typingRun.len).cons.edited :=
  (line_discipline typingRun (fun _ => false)
    (Run.ofEvents_zero step _ typing (.go 0) typing_runs) typing_writable typingRun.len
    (Nat.le_refl _)).1.2.2

end Xv6Fcfs.Console
