import Xv6Fcfs.Fs.Path

/-!
# What a lookup takes

The references and locks of the inode table, the open files and the descriptors are the
account of the file system.  Whatever is on the disk, a lookup of a path takes one reference,
that to its answer, and gives back every other reference and every lock.
-/

set_option autoImplicit false

namespace Xv6Fcfs.Fs

open Xv6Fcfs.Lib

structure Account where
  ref : Nat → Nat
  locked : Nat → Bool
  ftable : Nat → File
  proc : Nat → Option ProcFiles

def account (s : FsState) : Account where
  ref a := (s.itable a).ref
  locked a := (s.itable a).locked
  ftable := s.ftable
  proc := s.proc

namespace Account

def take (l : Account) (a : Nat) : Account := { l with ref := upd l.ref a (l.ref a + 1) }

def lock (l : Account) (a : Nat) : Account := { l with locked := upd l.locked a true }

def gained (l : Account) : Option Nat → Account
  | none => l
  | some a => l.take a

theorem take_take (l : Account) (a b : Nat) : (l.take a).take b = (l.take b).take a := by
  simp only [take, Account.mk.injEq, and_true]
  funext x
  by_cases same : a = b
  · rw [same]
  · by_cases first : x = a
    · subst first
      simp [same]
    · by_cases second : x = b
      · subst second
        simp [Ne.symm same]
      · simp [first, second]

end Account

section Lookup
variable {sb : Superblock} {s : FsState} {l : Account} {a : Nat}

theorem account_setInode (s : FsState) (a : Nat) (e : Inode) : account (setInode a e s) =
    { account s with
      ref := upd (account s).ref a e.ref, locked := upd (account s).locked a e.locked } := by
  simp only [account, setInode, Account.mk.injEq, and_true]
  refine ⟨funext fun b => ?_, funext fun b => ?_⟩ <;>
  · by_cases here : b = a <;> simp [here]

theorem account_ref {e : Inode} (locked : e.locked = (s.itable a).locked) :
    account (setInode a e s) = { account s with ref := upd (account s).ref a e.ref } := by
  have same : upd (account s).locked a (s.itable a).locked = (account s).locked := upd_eq_self _ a
  rw [account_setInode, locked, same]

theorem account_lock {e : Inode} (ref : e.ref = (s.itable a).ref) :
    account (setInode a e s) = { account s with locked := upd (account s).locked a e.locked } := by
  have same : upd (account s).ref a (s.itable a).ref = (account s).ref := upd_eq_self _ a
  rw [account_setInode, ref, same]

theorem account_same {e : Inode} (ref : e.ref = (s.itable a).ref)
    (locked : e.locked = (s.itable a).locked) :
    account (setInode a e s) = account s := by
  have same : upd (account s).locked a (s.itable a).locked = (account s).locked := upd_eq_self _ a
  rw [account_lock ref, locked, same]

theorem onInode_account {α : Type} (m : InodeM α) :
    wp (onInode a m) (fun _ => True) (fun _ s' => account s' = account s) s := by
  rw [onInode_wp]
  refine wp_intro (fun _ _ _ => ?_) fun _ _ => trivial
  exact account_same rfl rfl

theorem iget_account (inum : Nat) :
    wp (iget inum) (fun _ => True) (fun a s' => account s' = (account s).take a) s := by
  have scan := igetScan_spec s.itable inum NINODE 0 none
  simp only [iget, wp_bind, wp_get]
  generalize igetScan s.itable inum 0 NINODE none = result at scan ⊢
  obtain ⟨found, empty⟩ := result
  cases found with
  | some a => exact account_ref rfl
  | none =>
      cases empty with
      | none => trivial
      | some a =>
          obtain no | ⟨-, -, free⟩ := scan.2.1 a rfl
          · cases no
          · have zero : (account s).ref a = 0 := free
            simp only [wp_bind, wp_modify, wp_pure, Account.take, zero]
            exact account_ref rfl

theorem ilock_account : wp (ilock sb a) (fun _ => True)
    (fun _ s' => (account s).locked a = false ∧ account s' = (account s).lock a) s := by
  simp only [ilock, wp_bind, wp_get, wp_ite, wp_throw, wp_set, wp_pure]
  refine ⟨fun _ => trivial, fun _ => ⟨fun _ => trivial, fun unlocked => ?_⟩⟩
  have free : (account s).locked a = false := Bool.eq_false_iff.mpr unlocked
  exact ⟨fun _ => ⟨free, account_lock rfl⟩, fun _ =>
    ⟨fun _ => trivial, fun _ => ⟨free, account_lock rfl⟩⟩⟩

theorem iunlock_account (own : account s = l.lock a) (free : l.locked a = false) :
    wp (iunlock a) (fun _ => True) (fun _ s' => account s' = l) s := by
  simp only [iunlock, wp_bind, wp_get, wp_ite, wp_throw, wp_set]
  refine ⟨fun _ => trivial, fun _ => ?_⟩
  have same : upd l.locked a false = l.locked := by
    rw [← free]
    exact upd_eq_self _ a
  have ref : (s.itable a).ref = l.ref a := congrFun (congrArg Account.ref own) a
  rw [account_setInode, own]
  simp only [Account.lock, upd_upd, ref, upd_eq_self, same]

theorem iputFree_account : wp (iputFree sb a) (fun _ => True)
    (fun _ s' => account s' = account s) s := by
  refine wp_seq (onInode_account _) fun _ s1 same1 => ?_
  refine wp_seq (onInode_account _) fun _ s2 same2 => ?_
  refine wp_seq (onInode_account _) fun _ s3 same3 => ?_
  refine Eq.trans ?_ (same3.trans (same2.trans same1))
  exact account_same rfl rfl

theorem iput_account (own : account s = l.take a) :
    wp (iput sb a) (fun _ => True) (fun _ s' => account s' = l) s := by
  -- the reference is given back, whether or not the inode is freed
  have drop : ∀ t : FsState, account t = l.take a →
      account (setInode a { t.itable a with ref := (t.itable a).ref - 1 } t) = l := by
    intro t own
    have one : (t.itable a).ref - 1 = l.ref a := by
      have ref : (t.itable a).ref = (l.take a).ref a := congrFun (congrArg Account.ref own) a
      rw [ref, Account.take]
      simp
    have locked : (t.itable a).locked = l.locked a := congrFun (congrArg Account.locked own) a
    rw [account_setInode, own]
    simp only [Account.take, upd_upd, one, locked, upd_eq_self]
  simp only [iput, wp_bind, wp_get, wp_ite, wp_throw, wp_modify]
  refine ⟨fun _ => ⟨fun _ => trivial, fun _ => ?_⟩, fun _ => drop s own⟩
  exact wp_post iputFree_account fun _ t same => drop t (same.trans own)

theorem iunlockput_account (own : account s = (l.take a).lock a) (free : l.locked a = false) :
    wp (iunlockput sb a) (fun _ => True) (fun _ s' => account s' = l) s := by
  refine wp_seq (iunlock_account own free) fun _ t left => ?_
  exact iput_account left

theorem dirlookup_account (dp : Nat) (name : Bytes) (s : FsState) :
    wp (dirlookup sb dp name) (fun _ => True)
      (fun r s' => account s' = (account s).gained (r.map Prod.fst)) s := by
  have loop : ∀ (fuel off : Nat) (t : FsState), account t = account s →
      wp (dirlookupLoop sb dp name fuel off) (fun _ => True)
        (fun r s' => account s' = (account s).gained (r.map Prod.fst)) t := by
    intro fuel
    induction fuel with
    | zero => exact fun off t same => same
    | succ fuel ih =>
        intro off t same
        simp only [dirlookupLoop, wp_bind, wp_get, wp_ite, wp_pure]
        refine ⟨fun _ => ?_, fun _ => same⟩
        refine wp_post (onInode_account _) ?_
        rintro ⟨r, de⟩ u same'
        have back := same'.trans same
        simp only [wp_throw]
        refine ⟨fun _ => trivial, fun _ =>
          ⟨fun _ => ih _ u back, fun _ => ⟨fun _ => ?_, fun _ => ih _ u back⟩⟩⟩
        refine wp_post (iget_account _) ?_
        intro ip v got
        rw [got, back]
        rfl
  simp only [dirlookup, wp_bind, wp_get, wp_ite, wp_throw]
  exact ⟨fun _ => trivial, fun _ => loop _ 0 s rfl⟩

theorem namexLoop_account : ∀ (fuel a : Nat) (path : Path) (s : FsState) (l : Account),
    path.length < fuel → account s = l.take a →
    wp (namexLoop sb false fuel a path) (fun _ => True)
      (fun r s' => account s' = l.gained (r.map Prod.fst)) s := by
  intro fuel
  induction fuel with
  | zero => intro a path s l enough; omega
  | succ fuel ih =>
      intro a path s l enough own
      rw [namexLoop]
      cases elem : skipelem path with
      | none =>
          simp only [Bool.false_eq_true, if_false, wp_pure]
          exact own
      | some found =>
          obtain ⟨name, rest⟩ := found
          have shorter := skipelem_shorter elem
          simp only [Bool.false_eq_true, false_and, if_false]
          refine wp_seq ilock_account ?_
          rintro _ s1 ⟨free, locked⟩
          rw [own] at free locked
          rw [wp_bind, wp_get]
          have leave : ∀ t : FsState, account t = (l.take a).lock a →
              wp (do iunlockput sb a; return none : FsM (Option (Nat × Bytes))) (fun _ => True)
                (fun r s' => account s' = l.gained (r.map Prod.fst)) t := by
            intro t same
            exact wp_seq (iunlockput_account same free) fun _ u back => back
          rw [wp_ite]
          refine ⟨fun _ => leave s1 locked, fun _ => ?_⟩
          refine wp_seq (dirlookup_account a name s1) ?_
          intro r s2 found
          rw [locked] at found
          cases r with
          | none => exact leave s2 found
          | some next =>
              obtain ⟨next, off⟩ := next
              have order : account s2 = ((l.take next).take a).lock a := by
                rw [Account.take_take]
                exact found
              refine wp_seq (iunlockput_account order free) fun _ s3 back => ?_
              exact ih next rest s3 l (by omega) back

theorem namei_account (cwd : Nat) (path : Path) (s : FsState) :
    wp (namei sb cwd path) (fun _ => True) (fun r s' => account s' = (account s).gained r) s := by
  have walk : ∀ (a : Nat) (t : FsState), account t = (account s).take a →
      wp (namexLoop sb false (path.length + 1) a path) (fun _ => True)
        (fun r s' => account s' = (account s).gained (r.map Prod.fst)) t :=
    fun a t own => namexLoop_account _ a path t _ (by omega) own
  simp only [namei, namex, wp_bind, wp_pure]
  split
  · exact wp_seq (iget_account _) walk
  · simp only [idup, wp_bind, wp_modify, wp_pure]
    exact walk cwd _ (account_ref rfl)

end Lookup

end Xv6Fcfs.Fs
