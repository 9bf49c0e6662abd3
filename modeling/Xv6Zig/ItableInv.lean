/-
Xv6Zig/ItableInv.lean

What a step of the inode table does (`kernel/fs.c`), and what the table keeps as to
references, variables and locks.

`Does` lists the steps with what is known when they are taken, and everything else is
proved from it.  `Counted` is what `itable.lock` is for: one entry for an inode, and
`ref` as the number of variables that point to it.  `Used` says that a variable whose
reference is being dropped is not used for anything else.  `Locks` says who has which
sleep lock.
-/
import Mathlib.Data.Fintype.Card
import Xv6Zig.Lib.Owners
import Xv6Zig.Lib.Updates
import Xv6Zig.Itable

namespace Xv6Zig

open Lib Function

namespace InodePc

variable {T : Type*}

/-- In `iput`, from the test to the update that frees the inode. -/
def freeing? : InodePc T → Option T
  | itrunc t | untype t | iupdate t => some t
  | _ => none

/-- In `iput`, after the inode was freed. -/
def dying? : InodePc T → Option T
  | invalidate t | unlock t | drop t => some t
  | _ => none

variable {pc : InodePc T} {t : T}

theorem var?_of_put? (h : pc.put? = some t) : pc.var? = some t := by
  cases pc <;> first | exact h | cases h

theorem var?_of_locked? (h : pc.locked? = some t) : pc.var? = some t := by
  cases pc <;> first | exact h | cases h

theorem locked?_of_var? (h : pc.var? = none) : pc.locked? = none := by
  cases pc <;> first | rfl | cases h

theorem put?_of_dying? (h : pc.dying? = some t) : pc.put? = some t := by
  cases pc <;> first | exact h | cases h

theorem locked?_of_freeing? (h : pc.freeing? = some t) : pc.locked? = some t := by
  cases pc <;> first | exact h | cases h

theorem dying?_of_freeing? (h : pc.freeing? = some t) : pc.dying? = none := by
  cases pc <;> first | rfl | cases h

theorem put?_of_freeing? (h : pc.freeing? = some t) : pc.put? = some t := by
  cases pc <;> first | exact h | cases h

end InodePc

namespace InodeUser

variable {T : Type*} {u : InodeUser T} {t : T}

theorem mem_uses : t ∈ u.uses ↔ u.pc.var? = some t ∨ t ∈ u.held := by
  simp [uses]

theorem mem_locked : t ∈ u.locked ↔ u.pc.locked? = some t ∨ t ∈ u.held := by
  simp [locked]

theorem mem_uses_of_locked (h : t ∈ u.locked) : t ∈ u.uses :=
  mem_uses.mpr ((mem_locked.mp h).imp_left InodePc.var?_of_locked?)

theorem mem_uses_of_put? (h : u.pc.put? = some t) : t ∈ u.uses :=
  mem_uses.mpr (.inl (InodePc.var?_of_put? h))

end InodeUser

namespace Itable

variable {T : Type*} [DecidableEq T] {s s' : Itable T} {p : ProcIx} {a : InodeAct T}
variable {i j : InodeIx} {t : T} {k : Ino}

/-! ### Everything a step can do -/

/-- `iget(k)` may be called: the inode has links, or it comes from `ialloc`. -/
def MayGet (s : Itable T) (p : ProcIx) (k : Ino) : Prop :=
  ((s.users p).pc = .out ∧ 0 < (s.dinode k).nlink) ∨ (s.users p).pc = .iget k

omit [DecidableEq T] in
theorem MayGet.var?_eq (h : s.MayGet p k) : (s.users p).pc.var? = none := by
  rcases h with ⟨hpc, -⟩ | hpc
  · rw [hpc]
    rfl
  · rw [hpc]
    rfl

/-- The step taken by process `p`. -/
inductive Does (s : Itable T) (p : ProcIx) : Itable T → Prop
  | hit {k : Ino} {t : T} {i : InodeIx} : s.MayGet p k → s.var t = none →
      0 < (s.inode i).ref → (s.inode i).ino = k →
      Does s p (((s.setInode i { s.inode i with ref := (s.inode i).ref + 1 }).setVar t
        (some i)).goto p .out)
  | recycle {k : Ino} {t : T} {i : InodeIx} : s.MayGet p k → s.var t = none →
      (∀ j, 0 < (s.inode j).ref → (s.inode j).ino ≠ k) → (s.inode i).ref = 0 →
      Does s p (((s.setInode i { s.inode i with ino := k, ref := 1, valid := false }).setVar t
        (some i)).goto p .out)
  | dup {t t' : T} {i : InodeIx} : (s.users p).pc = .out → s.var t = some i → s.Kept t →
      s.var t' = none →
      Does s p ((s.setInode i { s.inode i with ref := (s.inode i).ref + 1 }).setVar t' (some i))
  | ilock {t : T} : (s.users p).pc = .out → s.var t ≠ none → s.Kept t →
      Does s p (s.goto p (.ilock t))
  | lock {t : T} {i : InodeIx} : (s.users p).pc = .ilock t → s.var t = some i →
      (s.inode i).lock = none →
      Does s p ((s.setInode i { s.inode i with lock := some p }).goto p (.iread t))
  | found {t : T} {i : InodeIx} : (s.users p).pc = .iread t → s.var t = some i →
      (s.inode i).valid = true → Does s p (s.ret p t)
  | read {t : T} {i : InodeIx} : (s.users p).pc = .iread t → s.var t = some i →
      (s.inode i).valid = false → (s.dinode (s.inode i).ino).type ≠ 0 →
      Does s p ((s.setInode i
        { s.inode i with valid := true, copy := s.dinode (s.inode i).ino }).ret p t)
  | modify {t : T} {i : InodeIx} {d : Dinode} : (s.users p).pc = .out →
      t ∈ (s.users p).held → s.var t = some i →
      Does s p ((s.setInode i
        { s.inode i with copy := { d with type := (s.inode i).copy.type } }).setDirty i true)
  | update {t : T} {i : InodeIx} : (s.users p).pc = .out → t ∈ (s.users p).held →
      s.var t = some i →
      Does s p ((s.iupdate i).setDirty i false)
  | iunlock {t : T} {i : InodeIx} : (s.users p).pc = .out → t ∈ (s.users p).held →
      s.var t = some i → s.dirty i = false →
      Does s p ((s.setInode i { s.inode i with lock := none }).setUser p
        ⟨.out, (s.users p).held.erase t⟩)
  | iput {t : T} : (s.users p).pc = .out → s.var t ≠ none → s.Idle t →
      Does s p (s.goto p (.iput t))
  | free {t : T} {i : InodeIx} : (s.users p).pc = .iput t → s.var t = some i →
      (s.inode i).ref = 1 → (s.inode i).valid = true → (s.inode i).copy.nlink = 0 →
      (s.inode i).lock = none →
      Does s p ((s.setInode i { s.inode i with lock := some p }).goto p (.itrunc t))
  | unref {t : T} {i : InodeIx} : (s.users p).pc.put? = some t →
      (s.users p).pc.locked? = none → s.var t = some i →
      ((s.users p).pc = .iput t → (s.inode i).ref = 1 → (s.inode i).valid = true →
        (s.inode i).copy.nlink ≠ 0) → Does s p (s.unref p t i)
  | trunc {t : T} {i : InodeIx} : (s.users p).pc = .itrunc t → s.var t = some i →
      Does s p (((s.setInode i
        { s.inode i with copy := (s.inode i).copy.trunc }).iupdate i).goto p (.untype t))
  | untype {t : T} {i : InodeIx} : (s.users p).pc = .untype t → s.var t = some i →
      Does s p (((s.setInode i
        { s.inode i with copy := { (s.inode i).copy with type := 0 } }).setDirty i true).goto p
          (.iupdate t))
  | clear {t : T} {i : InodeIx} : (s.users p).pc = .iupdate t → s.var t = some i →
      Does s p ((s.iupdate i).goto p (.invalidate t))
  | invalidate {t : T} {i : InodeIx} : (s.users p).pc = .invalidate t → s.var t = some i →
      Does s p (((s.setInode i { s.inode i with valid := false }).setDirty i false).goto p
        (.unlock t))
  | unlock {t : T} {i : InodeIx} : (s.users p).pc = .unlock t → s.var t = some i →
      Does s p ((s.setInode i { s.inode i with lock := none }).goto p (.drop t))
  | search {pc : InodePc T} : (s.users p).pc.var? = none → (∀ k, (s.users p).pc ≠ .iget k) →
      pc.var? = none → (∀ k, pc ≠ .iget k) → Does s p (s.goto p pc)
  | alloc {k : Ino} {type : FileType} : (s.users p).pc.var? = none →
      (∀ k, (s.users p).pc ≠ .iget k) → (s.dinode k).type = 0 →
      Does s p ((s.setDinode k { Dinode.zero with type := type.1 }).goto p (.iget k))

omit [DecidableEq T] in
/-- The loop of `iget` finds the entry for `k`, if there is one. -/
theorem igetLoop_spec {is : List InodeIx} {empty : Option InodeIx}
    (hempty : ∀ j, empty = some j → (s.inode j).ref = 0) (h : s.igetLoop k is empty = some i) :
    (0 < (s.inode i).ref ∧ (s.inode i).ino = k) ∨
      ((s.inode i).ref = 0 ∧ ∀ j ∈ is, 0 < (s.inode j).ref → (s.inode j).ino ≠ k) := by
  induction is generalizing empty with
  | nil => exact .inr ⟨hempty i h, nofun⟩
  | cons j is ih =>
    rw [igetLoop] at h
    split_ifs at h with hfound hfree
    · cases h
      exact .inl hfound
    all_goals
      refine (ih ?_ h).imp_right fun hmiss => ⟨hmiss.1, ?_⟩
    · rintro j' hj'
      cases hj'
      exact hfree.2
    · exact List.forall_mem_cons.mpr ⟨fun href hino => hfound ⟨href, hino⟩, hmiss.2⟩
    · exact hempty
    · exact List.forall_mem_cons.mpr ⟨fun href hino => hfound ⟨href, hino⟩, hmiss.2⟩

theorem iget_does (hmay : s.MayGet p k) (hvar : s.var t = none)
    (h : (s.iget k t).map (·.goto p .out) = some s') : s.Does p s' := by
  obtain ⟨s₁, hget, rfl⟩ := Option.map_eq_some_iff.mp h
  unfold iget at hget
  split at hget
  · cases hget
  · rename_i i hloop
    split_ifs at hget with hfound
    · cases hget
      exact .hit hmay hvar hfound.1 hfound.2
    · cases hget
      have hempty : ∀ j, (none : Option InodeIx) = some j → (s.inode j).ref = 0 := nofun
      rcases igetLoop_spec hempty hloop with hhit | ⟨hfree, hmiss⟩
      · exact absurd hhit hfound
      · exact .recycle hmay hvar (fun j => hmiss j (List.mem_finRange j)) hfree

theorem iallocRound_does {dev inum : ℕ} {type : FileType}
    (hpc : (s.users p).pc = .ialloc dev type inum) :
    s.Does p (s.iallocRound p dev type inum) := by
  have hvar : (s.users p).pc.var? = none := by rw [hpc]; rfl
  have hget : ∀ k, (s.users p).pc ≠ .iget k := by
    intro k
    rw [hpc]
    exact nofun
  unfold iallocRound
  split_ifs with hlt hfree
  · exact .alloc hvar hget hfree
  · exact .search hvar hget rfl nofun
  · exact .search hvar hget rfl nofun

theorem iput_does (hpc : (s.users p).pc = .iput t) (hvar : s.var t = some i)
    (h : s.iput p t i = some s') : s.Does p s' := by
  unfold iput at h
  split_ifs at h with hlast hfree
  · cases h
    exact .free hpc hvar hlast.1 hlast.2.1 hlast.2.2 hfree
  · cases h
    refine .unref (by rw [hpc]; rfl) (by rw [hpc]; rfl) hvar ?_
    exact fun _ href hvalid hnlink => hlast ⟨href, hvalid, hnlink⟩

theorem iread_does (hpc : (s.users p).pc = .iread t) (hvar : s.var t = some i)
    (h : s.iread p t i = some s') : s.Does p s' := by
  unfold iread at h
  split_ifs at h with hvalid htype
  · cases h
    exact .found hpc hvar hvalid
  · cases h
    exact .read hpc hvar (Bool.eq_false_iff.mpr hvalid) htype

theorem advance_does {pc : InodePc T} (hpc : (s.users p).pc = pc)
    (hvar : pc.var?.bind s.var = some i) (h : s.advance p i pc = some s') : s.Does p s' := by
  cases pc with
  | ilock t =>
    rw [advance] at h
    split_ifs at h with hfree
    cases h
    exact .lock hpc hvar hfree
  | iread t => exact iread_does hpc hvar h
  | iput t => exact iput_does hpc hvar h
  | itrunc t =>
    cases h
    exact .trunc hpc hvar
  | untype t =>
    cases h
    exact .untype hpc hvar
  | iupdate t =>
    cases h
    exact .clear hpc hvar
  | invalidate t =>
    cases h
    exact .invalidate hpc hvar
  | unlock t =>
    cases h
    exact .unlock hpc hvar
  | drop t =>
    cases h
    refine .unref (by rw [hpc]; rfl) (by rw [hpc]; rfl) hvar ?_
    rw [hpc]
    nofun
  | out | ialloc dev type inum | iget k => cases h

theorem go_does (h : s.go p = some s') : s.Does p s' := by
  unfold go at h
  split at h
  case h_1 hpc =>
    cases h
    exact iallocRound_does hpc
  case h_2 =>
    obtain ⟨i, hvar, hadv⟩ := Option.bind_eq_some_iff.mp h
    exact advance_does rfl hvar hadv

theorem call_does (hpc : (s.users p).pc = .out) (h : s.call p a = some s') : s.Does p s' := by
  cases a with
  | iget k t =>
    rw [call] at h
    split_ifs at h with hguard
    exact iget_does (.inl ⟨hpc, hguard.2⟩) hguard.1 h
  | idup t t' =>
    obtain ⟨i, hvar, h⟩ := Option.bind_eq_some_iff.mp h
    split_ifs at h with hguard
    cases h
    exact .dup hpc hvar hguard.1 hguard.2
  | ilock t =>
    rw [call] at h
    split_ifs at h with hguard
    cases h
    exact .ilock hpc hguard.1 hguard.2
  | modify t d =>
    obtain ⟨i, hvar, h⟩ := Option.bind_eq_some_iff.mp h
    split_ifs at h with hheld
    cases h
    exact .modify hpc hheld hvar
  | iupdate t =>
    obtain ⟨i, hvar, h⟩ := Option.bind_eq_some_iff.mp h
    split_ifs at h with hheld
    cases h
    exact .update hpc hheld hvar
  | iunlock t =>
    obtain ⟨i, hvar, h⟩ := Option.bind_eq_some_iff.mp h
    split_ifs at h with hguard
    cases h
    exact .iunlock hpc hguard.1 hvar hguard.2
  | iput t =>
    rw [call] at h
    split_ifs at h with hguard
    cases h
    exact .iput hpc hguard.1 hguard.2
  | ialloc dev type =>
    cases h
    refine .search ?_ ?_ rfl nofun
    · rw [hpc]
      rfl
    · rw [hpc]
      exact nofun
  | iallocGet t | go => cases h

theorem Step.does (h : s.Step (p, a) s') : s.Does p s' := by
  unfold Step next at h
  split at h
  case h_1 t k ha hpc =>
    split_ifs at h with hvar
    exact iget_does (.inr hpc) hvar h
  case h_2 => exact go_does h
  case h_3 hpc _ => exact call_does hpc h
  case h_4 => cases h

/-! ### The invariant -/

section Invariant

variable [Fintype T]

/-- The number of variables that point to entry `i`. -/
def refs (s : Itable T) (i : InodeIx) : ℕ := (Finset.univ.filter fun t => s.var t = some i).card

/-- What `itable.lock` protects. -/
structure Counted (s : Itable T) : Prop where
  unique : ∀ {i j}, 0 < (s.inode i).ref → 0 < (s.inode j).ref →
    (s.inode i).ino = (s.inode j).ino → i = j
  count : ∀ i, (s.inode i).ref = s.refs i

end Invariant

/-- How processes use the variables. -/
structure Used (s : Itable T) : Prop where
  /-- a variable in use holds a reference -/
  var : ∀ {p t}, t ∈ (s.users p).uses → s.var t ≠ none
  /-- a variable whose reference is being dropped is used for nothing else -/
  put : ∀ {p t}, (s.users p).pc.put? = some t →
    (∀ q, t ∈ (s.users q).uses → q = p) ∧ t ∉ (s.users p).held

/-- Who has which sleep lock. -/
def Locks (s : Itable T) : Prop :=
  Owners (fun x : Option InodeIx => x.bind fun i => (s.inode i).lock)
    fun p => (s.users p).locked.map s.var

/-! ### References -/

section References

variable [Fintype T]

theorem refs_setVar (t : T) (x : Option InodeIx) (j : InodeIx) :
    (s.setVar t x).refs j + (if s.var t = some j then 1 else 0)
      = s.refs j + if x = some j then 1 else 0 := by
  unfold refs
  rw [Finset.card_filter, Finset.card_filter]
  exact sum_update_add (fun v => if v = some j then 1 else 0) s.var t x

omit [DecidableEq T] in
theorem refs_congr (hvar : s'.var = s.var) (j : InodeIx) : s'.refs j = s.refs j := by
  unfold refs
  rw [hvar]

theorem refs_take (ht : s.var t = none) (hvar : s'.var = update s.var t (some i))
    (j : InodeIx) : s'.refs j = s.refs j + if some i = some j then 1 else 0 := by
  have hset := refs_setVar (s := s) t (some i) j
  rw [ht, if_neg nofun, add_zero] at hset
  rw [← hset]
  exact refs_congr hvar j

theorem refs_drop (ht : s.var t = some i) (hvar : s'.var = update s.var t none)
    (j : InodeIx) : s'.refs j + (if some i = some j then 1 else 0) = s.refs j := by
  have hset := refs_setVar (s := s) t none j
  rw [ht] at hset
  rw [refs_congr (s := s.setVar t none) hvar]
  exact hset

namespace Counted

omit [DecidableEq T]

theorem pos (h : s.Counted) (hvar : s.var t = some i) : 0 < (s.inode i).ref := by
  rw [h.count, refs, Finset.card_pos]
  exact ⟨t, Finset.mem_filter.mpr ⟨Finset.mem_univ t, hvar⟩⟩

theorem var_ne (h : s.Counted) (href : (s.inode i).ref = 0) (t : T) : s.var t ≠ some i := by
  intro hvar
  exact absurd (h.pos hvar) (by omega)

theorem var_eq (h : s.Counted) (href : (s.inode i).ref = 1) {t t' : T} (ht : s.var t = some i)
    (ht' : s.var t' = some i) : t' = t := by
  rw [h.count, refs] at href
  apply Finset.card_le_one.mp href.le
  · exact Finset.mem_filter.mpr ⟨Finset.mem_univ t', ht'⟩
  · exact Finset.mem_filter.mpr ⟨Finset.mem_univ t, ht⟩

/-- Entries that are in use stay for their inodes. -/
theorem unique_of (h : s.Counted) (hkeep : ∀ i, 0 < (s'.inode i).ref →
    0 < (s.inode i).ref ∧ (s'.inode i).ino = (s.inode i).ino) {i j : InodeIx}
    (hi : 0 < (s'.inode i).ref) (hj : 0 < (s'.inode j).ref)
    (hij : (s'.inode i).ino = (s'.inode j).ino) : i = j := by
  obtain ⟨hi₀, hi₁⟩ := hkeep i hi
  obtain ⟨hj₀, hj₁⟩ := hkeep j hj
  exact h.unique hi₀ hj₀ (by rw [← hi₁, ← hj₁, hij])

theorem congr (h : s.Counted) (hvar : s'.var = s.var)
    (hinode : ∀ i, (s'.inode i).ref = (s.inode i).ref ∧ (s'.inode i).ino = (s.inode i).ino) :
    s'.Counted := by
  constructor
  · refine h.unique_of fun i hi => ⟨?_, (hinode i).2⟩
    rw [← (hinode i).1]
    exact hi
  · intro i
    rw [(hinode i).1, refs_congr hvar]
    exact h.count i

variable [DecidableEq T]

/-- One more reference to an entry that is in use. -/
theorem take (h : s.Counted) (hpos : 0 < (s.inode i).ref) (ht : s.var t = none)
    (hvar : s'.var = update s.var t (some i))
    (hinode : s'.inode = update s.inode i { s.inode i with ref := (s.inode i).ref + 1 }) :
    s'.Counted := by
  constructor
  · refine h.unique_of fun j hj => ?_
    rw [hinode] at hj ⊢
    rcases eq_or_ne j i with rfl | hne
    · simpa using hpos
    · simpa [hne] using hj
  · intro j
    rw [hinode, refs_take ht hvar, ← h.count]
    rcases eq_or_ne j i with rfl | hne
    · simp
    · simp [hne, hne.symm]

/-- The first reference to an inode that is not in the table. -/
theorem recycle (h : s.Counted) (hfree : (s.inode i).ref = 0)
    (hmiss : ∀ j, 0 < (s.inode j).ref → (s.inode j).ino ≠ k) (ht : s.var t = none)
    (hvar : s'.var = update s.var t (some i))
    (hinode : s'.inode = update s.inode i
      { s.inode i with ino := k, ref := 1, valid := false }) : s'.Counted := by
  constructor
  · intro j j' hj hj' heq
    rw [hinode] at hj hj' heq
    rcases eq_or_ne j i with rfl | hne <;> rcases eq_or_ne j' j with rfl | hne'
    · rfl
    · rw [update_of_ne hne'] at hj' heq
      rw [update_self] at heq
      exact absurd heq.symm (hmiss j' hj')
    · rfl
    · rw [update_of_ne hne] at hj heq
      rcases eq_or_ne j' i with rfl | hi
      · rw [update_self] at heq
        exact absurd heq (hmiss j hj)
      · rw [update_of_ne hi] at hj' heq
        exact h.unique hj hj' heq
  · intro j
    rw [hinode, refs_take ht hvar, ← h.count]
    rcases eq_or_ne j i with rfl | hne
    · simp [hfree]
    · simp [hne, hne.symm]

theorem drop (h : s.Counted) (ht : s.var t = some i)
    (hvar : s'.var = update s.var t none)
    (hinode : s'.inode = update s.inode i { s.inode i with ref := (s.inode i).ref - 1 }) :
    s'.Counted := by
  constructor
  · refine h.unique_of fun j hj => ?_
    rw [hinode] at hj ⊢
    rcases eq_or_ne j i with rfl | hne
    · simpa using h.pos ht
    · simpa [hne] using hj
  · intro j
    have hj := refs_drop ht hvar j
    rw [← h.count] at hj
    rw [hinode]
    rcases eq_or_ne j i with rfl | hne
    · simp at hj ⊢
      omega
    · simpa [hne, hne.symm] using hj.symm

end Counted

omit [DecidableEq T] in
theorem Counted.setInode (h : s.Counted) {x : Inode} (href : x.ref = (s.inode i).ref)
    (hino : x.ino = (s.inode i).ino) (hvar : s'.var = s.var)
    (hinode : s'.inode = update s.inode i x) : s'.Counted := by
  refine h.congr hvar fun j => ?_
  rw [hinode]
  exact ⟨update_field Inode.ref href j, update_field Inode.ino hino j⟩

theorem Counted.step (h : s.Counted) (hstep : s.Does p s') : s'.Counted := by
  cases hstep with
  | hit hmay ht hpos hino => exact h.take hpos ht rfl rfl
  | recycle hmay ht hmiss hfree => exact h.recycle hfree hmiss ht rfl rfl
  | dup hpc hvar hkept ht => exact h.take (h.pos hvar) ht rfl rfl
  | unref hput hlock hvar => exact h.drop hvar rfl rfl
  | lock | read | modify | iunlock | free | trunc | untype | invalidate | unlock =>
    refine h.setInode ?_ ?_ rfl rfl
    · rfl
    · rfl
  | ilock | found | update | iput | clear | search | alloc =>
    exact h.congr rfl fun _ => ⟨rfl, rfl⟩

end References

/-! ### Who uses which variable -/

namespace Used

omit [DecidableEq T]

theorem congr (h : s.Used) (husers : s'.users = s.users)
    (hvar : ∀ p, ∀ t ∈ (s.users p).uses, s'.var t ≠ none) : s'.Used := by
  constructor
  · intro p t ht
    rw [husers] at ht
    exact hvar p t ht
  · intro p t ht
    rw [husers] at ht ⊢
    exact h.put ht

variable {u : InodeUser T}

/-- A process goes on with variables that hold references and that nobody else drops. -/
theorem setUser (h : s.Used)
    (huses : ∀ t ∈ u.uses, s.var t ≠ none ∧ ∀ q ≠ p, (s.users q).pc.put? ≠ some t)
    (hput : ∀ t, u.pc.put? = some t → (∀ q ≠ p, t ∉ (s.users q).uses) ∧ t ∉ u.held)
    (husers : s'.users = update s.users p u) (hvar : s'.var = s.var) : s'.Used := by
  constructor
  · intro q t ht
    rw [husers] at ht
    rw [hvar]
    rcases eq_or_ne q p with rfl | hq
    · rw [update_self] at ht
      exact (huses t ht).1
    · rw [update_of_ne hq] at ht
      exact h.var ht
  · intro q t ht
    rw [husers] at ht ⊢
    rcases eq_or_ne q p with rfl | hq
    · rw [update_self] at ht ⊢
      refine ⟨fun q' hq' => ?_, (hput t ht).2⟩
      by_contra hne
      rw [update_of_ne hne] at hq'
      exact (hput t ht).1 q' hne hq'
    · rw [update_of_ne hq] at ht ⊢
      refine ⟨fun q' hq' => ?_, (h.put ht).2⟩
      rcases eq_or_ne q' p with rfl | hne
      · rw [update_self] at hq'
        exact absurd ht ((huses t hq').2 q hq)
      · rw [update_of_ne hne] at hq'
        exact (h.put ht).1 q' hq'

/-- A variable that a process uses is dropped by no other. -/
theorem put_ne (h : s.Used) (ht : t ∈ (s.users p).uses) : ∀ q ≠ p, (s.users q).pc.put? ≠ some t :=
  fun _ hq hput => hq ((h.put hput).1 p ht).symm

/-- A process goes on with no other variables. -/
theorem shrink (h : s.Used) (huses : ∀ t ∈ u.uses, t ∈ (s.users p).uses)
    (hput : ∀ t, u.pc.put? = some t → (s.users p).pc.put? = some t ∧ t ∉ u.held)
    (husers : s'.users = update s.users p u) (hvar : s'.var = s.var) : s'.Used := by
  refine h.setUser ?_ ?_ husers hvar
  · exact fun t ht => ⟨h.var (huses t ht), h.put_ne (huses t ht)⟩
  · intro t ht
    obtain ⟨hold, hheld⟩ := hput t ht
    exact ⟨fun q hq hq' => hq ((h.put hold).1 q hq'), hheld⟩

/-- A process enters a call that is given `t`. -/
theorem enter (h : s.Used) {pc : InodePc T} (hpc : pc.var? = some t) (ht : s.var t ≠ none)
    (hkept : ∀ q ≠ p, (s.users q).pc.put? ≠ some t)
    (hput : ∀ t', pc.put? = some t' → t' = t ∧ s.Idle t)
    (husers : s'.users = update s.users p ⟨pc, (s.users p).held⟩)
    (hvar : s'.var = s.var) : s'.Used := by
  refine h.setUser ?_ ?_ husers hvar
  · intro t' ht'
    unfold InodeUser.uses at ht'
    rw [hpc] at ht'
    rcases List.mem_cons.mp ht' with rfl | ht'
    · exact ⟨ht, hkept⟩
    · have huses : t' ∈ (s.users p).uses := List.mem_append_right _ ht'
      exact ⟨h.var huses, h.put_ne huses⟩
  · intro t' ht'
    obtain ⟨rfl, hidle⟩ := hput t' ht'
    exact ⟨fun q _ => hidle q, fun hheld => hidle p (List.mem_append_right _ hheld)⟩

theorem goto (h : s.Used) {pc : InodePc T} (hpc : pc.var? = (s.users p).pc.var?)
    (hput : ∀ t, pc.put? = some t → (s.users p).pc.put? = some t)
    (husers : s'.users = update s.users p ⟨pc, (s.users p).held⟩)
    (hvar : s'.var = s.var) : s'.Used := by
  refine h.shrink ?_ ?_ husers hvar
  · intro t ht
    unfold InodeUser.uses at ht ⊢
    rw [← hpc]
    exact ht
  · exact fun t ht => ⟨hput t ht, (h.put (hput t ht)).2⟩

theorem out (h : s.Used) (hpc : u.pc.var? = none) (hheld : ∀ t ∈ u.held, t ∈ (s.users p).uses)
    (husers : s'.users = update s.users p u) (hvar : s'.var = s.var) : s'.Used := by
  refine h.shrink ?_ ?_ husers hvar
  · intro t ht
    rw [InodeUser.mem_uses, hpc, or_iff_right nofun] at ht
    exact hheld t ht
  · intro t ht
    rw [InodePc.var?_of_put? ht] at hpc
    cases hpc

variable [DecidableEq T]

theorem fill (h : s.Used) (ht : s.var t = none) (i : InodeIx) : (s.setVar t (some i)).Used := by
  refine h.congr rfl fun p t' ht' => ?_
  have hne : t' ≠ t := by
    rintro rfl
    exact h.var ht' ht
  rw [setVar_var, update_of_ne hne]
  exact h.var ht'

end Used

theorem Used.step (h : s.Used) (hstep : s.Does p s') : s'.Used := by
  have hheld : ∀ t ∈ (s.users p).held, t ∈ (s.users p).uses := fun t => List.mem_append_right _
  cases hstep with
  | hit hmay ht => exact (h.fill ht _).out (u := ⟨.out, (s.users p).held⟩) rfl hheld rfl rfl
  | recycle hmay ht => exact (h.fill ht _).out (u := ⟨.out, (s.users p).held⟩) rfl hheld rfl rfl
  | dup hpc hvar hkept ht =>
    exact (h.fill ht _).congr rfl fun p t => (h.fill ht _).var
  | modify => exact h.congr rfl fun p t => h.var
  | update => exact h.congr rfl fun p t => h.var
  | ilock hpc hvar hkept =>
    refine h.enter rfl hvar (fun q _ => hkept q) ?_ rfl rfl
    nofun
  | iput hpc hvar hidle =>
    refine h.enter rfl hvar ?_ ?_ rfl rfl
    · exact fun q _ hput => hidle q (InodeUser.mem_uses_of_put? hput)
    · intro t' ht'
      cases ht'
      exact ⟨rfl, hidle⟩
  | found hpc | read hpc =>
    refine h.out rfl ?_ rfl rfl
    intro t ht
    unfold InodeUser.uses
    rw [hpc]
    exact ht
  | iunlock hpc ht hvar hdirty =>
    exact h.out rfl (fun t ht => hheld t (List.mem_of_mem_erase ht)) rfl rfl
  | @unref t i hput hlock hvar =>
    have hout : (s.goto p .out).Used :=
      h.out (u := ⟨.out, (s.users p).held⟩) rfl hheld rfl rfl
    refine hout.congr rfl ?_
    intro q t' ht'
    -- nobody uses the variable any more
    have hne : t' ≠ t := by
      rintro rfl
      rcases eq_or_ne q p with rfl | hq
      · rw [goto_users, update_self] at ht'
        exact (h.put hput).2 ht'
      · rw [goto_users, update_of_ne hq] at ht'
        exact hq ((h.put hput).1 q ht')
    rw [unref_var, update_of_ne hne]
    exact hout.var ht'
  | search hvar hget hvar' hget' =>
    exact h.out (u := ⟨_, (s.users p).held⟩) hvar' hheld rfl rfl
  | alloc hvar hget htype => exact h.out (u := ⟨.iget _, (s.users p).held⟩) rfl hheld rfl rfl
  | lock hpc =>
    refine h.goto ?_ ?_ rfl rfl
    · rw [hpc]
      rfl
    · nofun
  | free hpc | trunc hpc | untype hpc | clear hpc | invalidate hpc | unlock hpc =>
    refine h.goto ?_ ?_ rfl rfl
    · rw [hpc]
      rfl
    · rw [hpc]
      exact fun t ht => ht

/-! ### The sleep locks -/

namespace Locks

omit [DecidableEq T]

/-- A lock has one owner, who has it through one variable. -/
theorem only (h : s.Locks) {q : ProcIx} {t' : T} (ht : t ∈ (s.users p).locked)
    (hi : s.var t = some i) (ht' : t' ∈ (s.users q).locked) (hi' : s.var t' = some i) :
    q = p ∧ t' = t := by
  have hmem : some i ∈ (s.users p).locked.map s.var := List.mem_map.mpr ⟨t, ht, hi⟩
  have hmem' : some i ∈ (s.users q).locked.map s.var := List.mem_map.mpr ⟨t', ht', hi'⟩
  obtain rfl := Owners.unique h hmem hmem'
  exact ⟨rfl, List.inj_on_of_nodup_map (Owners.nodup h q) ht' ht (hi'.trans hi.symm)⟩

theorem lock_eq (h : s.Locks) (ht : t ∈ (s.users p).locked) (hi : s.var t = some i) :
    (s.inode i).lock = some p :=
  (Owners.mem h (k := some i)).mpr (List.mem_map.mpr ⟨t, ht, hi⟩)

theorem exists_of_lock (h : s.Locks) (hlock : (s.inode i).lock = some p) :
    ∃ t ∈ (s.users p).locked, s.var t = some i :=
  List.mem_map.mp ((Owners.mem h (k := some i)).mp hlock)

theorem notMem_of_free (h : s.Locks) (hfree : (s.inode i).lock = none) (hi : s.var t = some i)
    (p : ProcIx) : t ∉ (s.users p).locked := by
  intro ht
  have hlock := h.lock_eq ht hi
  rw [hfree] at hlock
  cases hlock

theorem congr (h : s.Locks) (hlock : ∀ i, (s'.inode i).lock = (s.inode i).lock)
    (hlocked : ∀ p, (s'.users p).locked = (s.users p).locked)
    (hvar : ∀ p, ∀ t ∈ (s.users p).locked, s'.var t = s.var t) : s'.Locks := by
  refine Owners.congr h ?_ fun p => ?_
  · funext x
    simp only [hlock]
  · rw [hlocked, List.map_congr_left (hvar p)]

theorem acquire (h : s.Locks) (hfree : (s.inode i).lock = none) (ht : s.var t = some i)
    (hinode : s'.inode = update s.inode i { s.inode i with lock := some p })
    (hvar : s'.var = s.var) (hself : (s'.users p).locked = t :: (s.users p).locked)
    (hother : ∀ q ≠ p, s'.users q = s.users q) : s'.Locks := by
  refine Owners.acquire (k := some i) (p := p) h hfree ?_ ?_ ?_
  · funext x
    cases x with
    | none => rfl
    | some j =>
      rcases eq_or_ne j i with rfl | hne
      · simp [hinode]
      · simp [hinode, hne]
  · rw [hvar, hself, List.map_cons, ht]
  · intro q hq
    rw [hvar, hother q hq]

theorem release (h : s.Locks) (ht : s.var t = some i)
    (hinode : s'.inode = update s.inode i { s.inode i with lock := none })
    (hvar : s'.var = s.var) (hself : (s.users p).locked.Perm (t :: (s'.users p).locked))
    (hother : ∀ q ≠ p, s'.users q = s.users q) : s'.Locks := by
  refine Owners.release (k := some i) (p := p) h ?_ ?_ ?_
  · funext x
    cases x with
    | none => rfl
    | some j =>
      rcases eq_or_ne j i with rfl | hne
      · simp [hinode]
      · simp [hinode, hne]
  · rw [hvar, ← ht, ← List.map_cons]
    exact hself.map s.var
  · intro q hq
    rw [hvar, hother q hq]

end Locks

theorem Locks.step (h : s.Locks) (hu : s.Used) (hstep : s.Does p s') : s'.Locks := by
  have hlocked : ∀ {pc : InodePc T}, pc.locked? = (s.users p).pc.locked? →
      (⟨pc, (s.users p).held⟩ : InodeUser T).locked = (s.users p).locked := by
    intro pc hpc
    unfold InodeUser.locked
    rw [hpc]
  have hret : ∀ {t : T}, (s.users p).pc = .iread t →
      (⟨.out, t :: (s.users p).held⟩ : InodeUser T).locked = (s.users p).locked := by
    intro t hpc
    unfold InodeUser.locked
    rw [hpc]
    rfl
  have hother : ∀ {u : InodeUser T}, ∀ q ≠ p, update s.users p u q = s.users q :=
    fun q hq => update_of_ne hq _ _
  -- a variable that is filled is not in use
  have hfill : ∀ {t : T} {x : Option InodeIx}, s.var t = none → ∀ q, ∀ t' ∈ (s.users q).locked,
      update s.var t x t' = s.var t' := by
    intro t x ht q t' ht'
    apply update_of_ne
    rintro rfl
    exact hu.var (InodeUser.mem_uses_of_locked ht') ht
  cases hstep with
  | hit hmay ht | recycle hmay ht =>
    refine h.congr (update_field Inode.lock ?_) (update_field InodeUser.locked ?_) (hfill ht)
    · rfl
    · exact hlocked (InodePc.locked?_of_var? hmay.var?_eq).symm
  | dup hpc hvar hkept ht =>
    refine h.congr (update_field Inode.lock ?_) (fun _ => rfl) (hfill ht)
    rfl
  | lock hpc hvar hfree | free hpc hvar href hvalid hnlink hfree =>
    refine h.acquire hfree hvar rfl rfl ?_ hother
    rw [goto_users, update_self]
    unfold InodeUser.locked
    rw [hpc]
    rfl
  | unlock hpc hvar =>
    refine h.release hvar rfl rfl ?_ hother
    rw [goto_users, update_self]
    unfold InodeUser.locked
    rw [hpc]
    rfl
  | iunlock hpc ht hvar hdirty =>
    refine h.release hvar rfl rfl ?_ hother
    rw [setUser_users, update_self]
    unfold InodeUser.locked
    rw [hpc]
    exact List.perm_cons_erase ht
  | @unref t i hput hlock hvar =>
    refine h.congr (update_field Inode.lock ?_) (update_field InodeUser.locked ?_) ?_
    · rfl
    · exact hlocked hlock.symm
    · intro q t' ht'
      apply update_of_ne
      rintro rfl
      obtain rfl := (hu.put hput).1 q (InodeUser.mem_uses_of_locked ht')
      rw [InodeUser.mem_locked, hlock, or_iff_right nofun] at ht'
      exact (hu.put hput).2 ht'
  | modify =>
    refine h.congr (update_field Inode.lock ?_) (fun _ => rfl) fun _ _ _ => rfl
    rfl
  | update => exact h.congr (fun _ => rfl) (fun _ => rfl) fun _ _ _ => rfl
  | trunc hpc | untype hpc | invalidate hpc =>
    refine h.congr (update_field Inode.lock ?_) (update_field InodeUser.locked ?_) fun _ _ _ => rfl
    · rfl
    · exact hlocked (by rw [hpc]; rfl)
  | read hpc =>
    refine h.congr (update_field Inode.lock ?_) (update_field InodeUser.locked ?_) fun _ _ _ => rfl
    · rfl
    · exact hret hpc
  | found hpc =>
    exact h.congr (fun _ => rfl) (update_field InodeUser.locked (hret hpc)) fun _ _ _ => rfl
  | ilock hpc | iput hpc | clear hpc =>
    refine h.congr (fun _ => rfl) (update_field InodeUser.locked ?_) fun _ _ _ => rfl
    exact hlocked (by rw [hpc]; rfl)
  | search hvar hget hvar' =>
    refine h.congr (fun _ => rfl) (update_field InodeUser.locked ?_) fun _ _ _ => rfl
    exact hlocked (by rw [InodePc.locked?_of_var? hvar, InodePc.locked?_of_var? hvar'])
  | alloc hvar =>
    refine h.congr (fun _ => rfl) (update_field InodeUser.locked ?_) fun _ _ _ => rfl
    exact hlocked (InodePc.locked?_of_var? hvar).symm

end Itable

end Xv6Zig
