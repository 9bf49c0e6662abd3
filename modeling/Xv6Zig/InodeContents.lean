/-
Xv6Zig/InodeContents.lean

What the inode table says about the inodes on disk (`kernel/fs.c`).

An entry whose inode was not changed since the last `iupdate` agrees with the inode's
block.  The difficult part is `iput`: when it frees an inode it gives up the table's
lock, and from the update that marks the inode free on disk until its reference is
gone the entry belongs to an inode that another process may have allocated again.
`dying?` names the variable with that reference.  Nobody looks at the inode through
it, and whoever has another variable for the entry has it for the new inode.

Main result: `Inv.step`.
-/
import Xv6Zig.ItableInv

namespace Xv6Zig

open Lib Function

namespace Itable

variable {T : Type*} {s s' : Itable T} {p q : ProcIx} {a : InodeAct T}
variable {i j : InodeIx} {t t' : T} {k : Ino}

/-! ### The invariant -/

/-- The inode in entry `i`, in the table and in its block. -/
structure EntryOk (s : Itable T) (i : InodeIx) : Prop where
  /-- an inode that a variable refers to is allocated, unless it was just freed -/
  alive : ∀ t, s.var t = some i → (∀ p, (s.users p).pc.dying? ≠ some t) →
    (s.dinode (s.inode i).ino).type ≠ 0
  clean : 0 < (s.inode i).ref → (s.inode i).valid = true → s.dirty i = false →
    (s.inode i).copy = s.dinode (s.inode i).ino
  typed : (s.inode i).valid = true → s.dirty i = false → (s.inode i).copy.type ≠ 0
  held : ∀ p, ∀ t ∈ (s.users p).held, s.var t = some i →
    (s.inode i).valid = true ∧ (s.inode i).copy.type ≠ 0
  dirty : s.dirty i = true → ∃ p t, s.var t = some i ∧ (t ∈ (s.users p).held ∨
    (s.users p).pc = .iupdate t ∨ (s.users p).pc = .invalidate t)
  free : ∀ p t, s.var t = some i → (s.users p).pc = .itrunc t ∨ (s.users p).pc = .untype t →
    (s.inode i).valid = true ∧ s.dirty i = false ∧ (s.inode i).copy.nlink = 0
  clear : ∀ p t, s.var t = some i → (s.users p).pc = .iupdate t →
    (s.inode i).copy.type = 0 ∧ (s.inode i).copy.nlink = 0 ∧
      (s.dinode (s.inode i).ino).nlink = 0
  sole : ∀ p t t', (s.users p).pc.freeing? = some t → s.var t = some i → s.var t' = some i →
    t' = t

/-- An inode that `ialloc` has taken and not yet put into the table. -/
structure Fresh (s : Itable T) (p : ProcIx) (k : Ino) : Prop where
  type : (s.dinode k).type ≠ 0
  nlink : (s.dinode k).nlink = 0
  dying : ∀ t i, s.var t = some i → (s.inode i).ino = k → ∃ q, (s.users q).pc.dying? = some t
  only : ∀ q, (s.users q).pc = .iget k → q = p

/-- The inodes as a whole. -/
structure Contents (s : Itable T) : Prop where
  entry : ∀ i, s.EntryOk i
  linked : ∀ k, 0 < (s.dinode k).nlink → (s.dinode k).type ≠ 0
  fresh : ∀ {p k}, (s.users p).pc = .iget k → s.Fresh p k

/-- What holds in every state. -/
structure Inv [Fintype T] (s : Itable T) : Prop where
  counted : s.Counted
  used : s.Used
  locks : s.Locks
  contents : s.Contents

/-! ### One entry -/

/-- The process may have changed the inode that `t` refers to. -/
abbrev Changing (u : InodeUser T) (t : T) : Prop :=
  t ∈ u.held ∨ u.pc = .iupdate t ∨ u.pc = .invalidate t

theorem locked?_of_changing {pc : InodePc T} (h : pc = .iupdate t ∨ pc = .invalidate t) :
    pc.locked? = some t := by
  rcases h with rfl | rfl <;> rfl

theorem Changing.mem_locked {u : InodeUser T} (h : Changing u t) : t ∈ u.locked :=
  InodeUser.mem_locked.mpr (h.symm.imp_left locked?_of_changing)

/-- The same inode, with the same copy. -/
structure SameInode (x y : Inode) : Prop where
  ino : y.ino = x.ino
  valid : y.valid = x.valid
  copy : y.copy = x.copy

theorem SameInode.update {x : Inode} (h : SameInode (s.inode i) x) (j : InodeIx) :
    SameInode (s.inode j) (Function.update s.inode i x j) :=
  ⟨update_field Inode.ino h.ino j, update_field Inode.valid h.valid j,
    update_field Inode.copy h.copy j⟩

/-- **The entry stays in order** when its inode does and nobody begins to change or free it. -/
theorem EntryOk.carry (h : s.EntryOk i) (hinode : SameInode (s.inode i) (s'.inode i))
    (href : 0 < (s'.inode i).ref → 0 < (s.inode i).ref)
    (hdinode : 0 < (s'.inode i).ref ∨ (∃ t, s'.var t = some i) →
      s'.dinode (s.inode i).ino = s.dinode (s.inode i).ino)
    (hd : s'.dirty i = s.dirty i)
    (halive : ∀ t, s'.var t = some i → (∀ q, (s'.users q).pc.dying? ≠ some t) →
      (s'.dinode (s.inode i).ino).type ≠ 0)
    (hheld : ∀ q t, s'.var t = some i → t ∈ (s'.users q).held →
      s.var t = some i ∧ t ∈ (s.users q).held)
    (hdirty : s.dirty i = true → ∀ q t, s.var t = some i → Changing (s.users q) t →
      s'.var t = some i ∧ Changing (s'.users q) t)
    (hfree : ∀ q t, s'.var t = some i → (s'.users q).pc.freeing? = some t →
      s.var t = some i ∧ (s'.users q).pc = (s.users q).pc ∧
        ∀ t', s'.var t' = some i → s.var t' = some i) : s'.EntryOk i where
  alive := by
    rw [hinode.ino]
    exact halive
  clean := by
    intro hpos hv hdi
    rw [hinode.ino, hinode.copy, hdinode (.inl hpos)]
    exact h.clean (href hpos) (hinode.valid ▸ hv) (hd ▸ hdi)
  typed := by
    intro hv hdi
    rw [hinode.copy]
    exact h.typed (hinode.valid ▸ hv) (hd ▸ hdi)
  held := by
    intro q t hq ht
    obtain ⟨ht', hq'⟩ := hheld q t ht hq
    rw [hinode.valid, hinode.copy]
    exact h.held q t hq' ht'
  dirty := by
    intro hdi
    rw [hd] at hdi
    obtain ⟨q, t, ht, huse⟩ := h.dirty hdi
    exact ⟨q, t, hdirty hdi q t ht huse⟩
  free := by
    intro q t ht hpc
    have hfreeing : (s'.users q).pc.freeing? = some t := by
      rcases hpc with hpc | hpc <;> rw [hpc] <;> rfl
    obtain ⟨ht', heq, -⟩ := hfree q t ht hfreeing
    rw [hinode.valid, hinode.copy, hd]
    exact h.free q t ht' (heq ▸ hpc)
  clear := by
    intro q t ht hpc
    obtain ⟨ht', heq, -⟩ := hfree q t ht (by rw [hpc]; rfl)
    rw [hinode.copy, hinode.ino, hdinode (.inr ⟨t, ht⟩)]
    exact h.clear q t ht' (heq ▸ hpc)
  sole := by
    intro q t t' hpc ht ht'
    obtain ⟨hold, heq, hvars⟩ := hfree q t ht hpc
    exact h.sole q t t' (heq ▸ hpc) hold (hvars t' ht')

/-- Nothing changes that concerns entry `j`, but for its lock. -/
structure SameAt (s s' : Itable T) (j : InodeIx) : Prop where
  inode : SameInode (s.inode j) (s'.inode j)
  ref : (s'.inode j).ref = (s.inode j).ref
  dinode : 0 < (s.inode j).ref → s'.dinode (s.inode j).ino = s.dinode (s.inode j).ino
  dirty : s'.dirty j = s.dirty j
  var : ∀ t, s'.var t = some j ↔ s.var t = some j
  held : ∀ t, s.var t = some j → ∀ q, t ∈ (s'.users q).held ↔ t ∈ (s.users q).held
  pc : ∀ t, s.var t = some j → ∀ q,
    (s'.users q).pc.var? = some t ∨ (s.users q).pc.var? = some t → (s'.users q).pc = (s.users q).pc

theorem EntryOk.congr [Fintype T] (h : s.EntryOk j) (hc : s.Counted) (hs : SameAt s s' j) :
    s'.EntryOk j := by
  have hpos : 0 < (s'.inode j).ref ∨ (∃ t, s'.var t = some j) → 0 < (s.inode j).ref := by
    rintro (hpos | ⟨t, ht⟩)
    · exact hs.ref ▸ hpos
    · exact hc.pos ((hs.var t).mp ht)
  refine h.carry hs.inode (fun h => hpos (.inl h)) (fun h => hs.dinode (hpos h)) hs.dirty
    (fun t ht hdying => ?_) (fun q t ht hq => ?_) (fun _ q t ht huse => ?_) (fun q t ht hq => ?_)
  · have ht' := (hs.var t).mp ht
    rw [hs.dinode (hc.pos ht')]
    refine h.alive t ht' fun q hq => hdying q ?_
    rw [hs.pc t ht' q (.inr (InodePc.var?_of_put? (InodePc.put?_of_dying? hq)))]
    exact hq
  · have ht' := (hs.var t).mp ht
    exact ⟨ht', (hs.held t ht' q).mp hq⟩
  · refine ⟨(hs.var t).mpr ht, huse.imp (hs.held t ht q).mpr fun hq => ?_⟩
    rw [hs.pc t ht q (.inr (InodePc.var?_of_locked? (locked?_of_changing hq)))]
    exact hq
  · have ht' := (hs.var t).mp ht
    have hvar := InodePc.var?_of_locked? (InodePc.locked?_of_freeing? hq)
    exact ⟨ht', hs.pc t ht' q (.inl hvar), fun t' => (hs.var t').mp⟩

theorem EntryOk.of_unlocked (hl : s.Locks) (hlock : (s.inode i).lock = none)
    (halive : ∀ t', s.var t' = some i → (∀ q, (s.users q).pc.dying? ≠ some t') →
      (s.dinode (s.inode i).ino).type ≠ 0)
    (hclean : 0 < (s.inode i).ref → (s.inode i).valid = true →
      (s.inode i).copy = s.dinode (s.inode i).ino)
    (htyped : (s.inode i).valid = true → (s.inode i).copy.type ≠ 0) (hdirty : s.dirty i = false) :
    s.EntryOk i := by
  have hnot : ∀ {q t'}, t' ∈ (s.users q).locked → s.var t' ≠ some i :=
    fun hq ht' => hl.notMem_of_free hlock ht' _ hq
  have hpc : ∀ {q t'}, (s.users q).pc.locked? = some t' → s.var t' ≠ some i :=
    fun hq => hnot (InodeUser.mem_locked.mpr (.inl hq))
  refine ⟨halive, fun hpos hv _ => hclean hpos hv, fun hv _ => htyped hv, ?_, ?_, ?_, ?_, ?_⟩
  · exact fun q t' hq ht' => absurd ht' (hnot (InodeUser.mem_locked.mpr (.inr hq)))
  · intro hd
    rw [hdirty] at hd
    cases hd
  · intro q t' ht' hq
    have hlocked : (s.users q).pc.locked? = some t' := by
      rcases hq with hq | hq <;> rw [hq] <;> rfl
    exact absurd ht' (hpc hlocked)
  · exact fun q t' ht' hq => absurd ht' (hpc (by rw [hq]; rfl))
  · exact fun q t₁ t₂ hq ht₁ _ => absurd ht₁ (hpc (InodePc.locked?_of_freeing? hq))

/-- A process moves on, and nothing changes but that it may give up locks. -/
theorem EntryOk.move (h : s.EntryOk i) {u : InodeUser T}
    (hinode : SameInode (s.inode i) (s'.inode i)) (href : (s'.inode i).ref = (s.inode i).ref)
    (hdinode : s'.dinode = s.dinode) (hd : s'.dirty = s.dirty) (hvar : s'.var = s.var)
    (husers : s'.users = update s.users p u)
    (hdying : ∀ t, (s.users p).pc.dying? = some t → u.pc.dying? = some t)
    (hheld : ∀ t ∈ u.held, t ∈ (s.users p).held)
    (hdirty : s.dirty i = true → ∀ t, s.var t = some i → Changing (s.users p) t → Changing u t)
    (hfree : u.pc.freeing? = none) : s'.EntryOk i := by
  have huser : ∀ q, q = p ∧ s'.users q = u ∨ s'.users q = s.users q := by
    intro q
    rw [husers]
    rcases eq_or_ne q p with rfl | hne
    · exact .inl ⟨rfl, update_self ..⟩
    · exact .inr (update_of_ne hne ..)
  refine h.carry hinode (fun h => href ▸ h) (fun _ => by rw [hdinode]) (by rw [hd]) ?_ ?_ ?_ ?_
  · intro t ht hnot
    rw [hvar] at ht
    rw [hdinode]
    refine h.alive t ht fun q hq => hnot q ?_
    rcases huser q with ⟨rfl, heq⟩ | heq <;> rw [heq]
    · exact hdying t hq
    · exact hq
  · intro q t ht hq
    rw [hvar] at ht
    refine ⟨ht, ?_⟩
    rcases huser q with ⟨rfl, heq⟩ | heq <;> rw [heq] at hq
    · exact hheld t hq
    · exact hq
  · intro hdi q t ht huse
    refine ⟨hvar ▸ ht, ?_⟩
    rcases huser q with ⟨rfl, heq⟩ | heq <;> rw [heq]
    · exact hdirty hdi t ht huse
    · exact huse
  · intro q t ht hq
    rw [hvar] at ht
    rcases huser q with ⟨rfl, heq⟩ | heq
    · rw [heq, hfree] at hq
      cases hq
    · exact ⟨ht, by rw [heq], fun t' ht' => hvar ▸ ht'⟩

/-- A process moves on with the same locks, and is not about to free anything. -/
theorem EntryOk.pass (h : s.EntryOk i) {pc : InodePc T}
    (hinode : SameInode (s.inode i) (s'.inode i)) (href : (s'.inode i).ref = (s.inode i).ref)
    (hdinode : s'.dinode = s.dinode) (hd : s'.dirty = s.dirty) (hvar : s'.var = s.var)
    (husers : s'.users = update s.users p ⟨pc, (s.users p).held⟩)
    (hdying : ∀ t, (s.users p).pc.dying? = some t → pc.dying? = some t)
    (hold : ∀ t, (s.users p).pc ≠ .iupdate t ∧ (s.users p).pc ≠ .invalidate t)
    (hnew : pc.freeing? = none) : s'.EntryOk i := by
  refine h.move hinode href hdinode hd hvar husers hdying (fun _ ht => ht) ?_ hnew
  rintro - t ht (hheld | hpc | hpc)
  · exact .inl hheld
  · exact absurd hpc (hold t).1
  · exact absurd hpc (hold t).2

/-- A process does something to another entry. -/
theorem sameAt_of_move {u : InodeUser T} (hinode : s'.inode j = s.inode j)
    (hdinode : 0 < (s.inode j).ref → s'.dinode (s.inode j).ino = s.dinode (s.inode j).ino)
    (hd : s'.dirty j = s.dirty j) (hvar : ∀ t, s'.var t = some j ↔ s.var t = some j)
    (husers : s'.users = update s.users p u)
    (hheld : ∀ t, s.var t = some j → (t ∈ u.held ↔ t ∈ (s.users p).held))
    (hpc : ∀ t, s.var t = some j → u.pc.var? ≠ some t ∧ (s.users p).pc.var? ≠ some t) :
    SameAt s s' j := by
  refine ⟨hinode ▸ ⟨rfl, rfl, rfl⟩, by rw [hinode], hdinode, hd, hvar, fun t ht q => ?_,
    fun t ht q hq => ?_⟩
  · rw [husers]
    rcases eq_or_ne q p with rfl | hne
    · rw [update_self]
      exact hheld t ht
    · rw [update_of_ne hne]
  · rw [husers] at hq ⊢
    rcases eq_or_ne q p with rfl | hne
    · rw [update_self] at hq
      rcases hq with hq | hq
      · exact absurd hq (hpc t ht).1
      · exact absurd hq (hpc t ht).2
    · rw [update_of_ne hne]

/-- One more variable for an entry that nobody is about to free. -/
theorem EntryOk.fill [DecidableEq T] (h : s.EntryOk i) (hpos : 0 < (s.inode i).ref)
    (hu : ∀ q, t ∉ (s.users q).uses) (hnew : (s.dinode (s.inode i).ino).type ≠ 0)
    (hnofree : ∀ q t', (s.users q).pc.freeing? = some t' → s.var t' ≠ some i)
    (hinode : SameInode (s.inode i) (s'.inode i)) (hdinode : s'.dinode = s.dinode)
    (hd : s'.dirty = s.dirty) (ht : s.var t = none)
    (hvar : s'.var = update s.var t (some i)) (husers : s'.users = s.users) :
    s'.EntryOk i := by
  -- the new variable is in use nowhere
  have hold : ∀ {q t'}, t' ∈ (s.users q).uses → s'.var t' = some i → s.var t' = some i := by
    intro q t' hq ht'
    have hne : t' ≠ t := by
      rintro rfl
      exact hu q hq
    rwa [hvar, update_of_ne hne] at ht'
  refine h.carry hinode (fun _ => hpos) (fun _ => by rw [hdinode]) (by rw [hd])
    (fun _ _ _ => by rw [hdinode]; exact hnew) (fun q t' ht' hq => ?_) (fun _ q t' ht' huse => ?_)
    (fun q t' ht' hq => ?_)
  · rw [husers] at hq
    exact ⟨hold (InodeUser.mem_uses.mpr (.inr hq)) ht', hq⟩
  · have hne : t' ≠ t := by
      rintro rfl
      cases ht.symm.trans ht'
    rw [hvar, update_of_ne hne, husers]
    exact ⟨ht', huse⟩
  · rw [husers] at hq
    have huse := InodeUser.mem_uses.mpr
      (.inl (InodePc.var?_of_locked? (InodePc.locked?_of_freeing? hq)))
    exact absurd (hold huse ht') (hnofree q t' hq)

/-! ### What a process may rely on -/

section Rely

variable [Fintype T]

/-- Only the owner of an entry's lock can have changed it. -/
theorem Inv.dirty_owner (h : s.Inv) (ht : t ∈ (s.users p).locked) (hvar : s.var t = some i)
    (hd : s.dirty i = true) : t ∈ (s.users p).held ∨ (s.users p).pc = .iupdate t ∨
      (s.users p).pc = .invalidate t := by
  obtain ⟨q, t', ht', huse⟩ := (h.contents.entry i).dirty hd
  obtain ⟨rfl, rfl⟩ := h.locks.only ht hvar (Changing.mem_locked huse) ht'
  exact huse

theorem Inv.not_dirty (h : s.Inv) (hfree : (s.inode i).lock = none) : s.dirty i = false := by
  by_contra hd
  obtain ⟨q, t, ht, huse⟩ := (h.contents.entry i).dirty (Bool.eq_true_of_not_eq_false hd)
  exact h.locks.notMem_of_free hfree ht q (Changing.mem_locked huse)

/-- A variable that is used for something else is not the one of an inode just freed. -/
theorem Inv.not_dying (h : s.Inv) (ht : t ∈ (s.users p).uses)
    (hpc : (s.users p).pc.dying? ≠ some t) (q : ProcIx) : (s.users q).pc.dying? ≠ some t := by
  intro hq
  obtain rfl := (h.used.put (InodePc.put?_of_dying? hq)).1 p ht
  exact hpc hq

theorem Inv.not_dying_of_held (h : s.Inv) (ht : t ∈ (s.users p).held) (q : ProcIx) :
    (s.users q).pc.dying? ≠ some t := by
  intro hq
  obtain ⟨hput, hnot⟩ := h.used.put (InodePc.put?_of_dying? hq)
  obtain rfl := hput p (InodeUser.mem_uses.mpr (.inr ht))
  exact hnot ht

/-- In `iread` the lock is new. -/
theorem Inv.notMem_held (h : s.Inv) (hpc : (s.users p).pc.locked? = some t) :
    t ∉ (s.users p).held := by
  intro ht
  have hnodup := Owners.nodup h.locks p
  unfold InodeUser.locked at hnodup
  rw [hpc] at hnodup
  exact (List.nodup_cons.mp hnodup).1 (List.mem_map_of_mem ht)

/-- `ilock` has the lock, and nobody has changed the inode since. -/
theorem Inv.not_dirty_of_iread (h : s.Inv) (hpc : (s.users p).pc = .iread t)
    (hvar : s.var t = some i) : s.dirty i = false := by
  have hlocked : (s.users p).pc.locked? = some t := by
    rw [hpc]
    rfl
  by_contra hd
  rcases h.dirty_owner (InodeUser.mem_locked.mpr (.inl hlocked)) hvar
    (Bool.eq_true_of_not_eq_false hd) with hheld | hpc' | hpc'
  · exact h.notMem_held hlocked hheld
  all_goals cases hpc.symm.trans hpc'

/-- Nobody has the lock of an entry whose only reference is being dropped. -/
theorem Inv.unlocked (h : s.Inv) (hvar : s.var t = some i) (href : (s.inode i).ref = 1)
    (hput : (s.users p).pc.put? = some t) (hlock : (s.users p).pc.locked? = none) :
    (s.inode i).lock = none := by
  rcases howner : (s.inode i).lock with _ | q
  · rfl
  · obtain ⟨t', ht', hvar'⟩ := h.locks.exists_of_lock howner
    obtain rfl := h.counted.var_eq href hvar hvar'
    obtain ⟨honly, hnot⟩ := h.used.put hput
    obtain rfl := honly q (InodeUser.mem_uses_of_locked ht')
    rw [InodeUser.mem_locked, hlock, or_iff_right nofun] at ht'
    exact absurd ht' hnot

/-- An inode that is about to be freed has no links. -/
theorem Inv.nlink_of_freeing (h : s.Inv) (hpc : (s.users p).pc.freeing? = some t)
    (hvar : s.var t = some i) : (s.dinode (s.inode i).ino).nlink = 0 := by
  have hentry := h.contents.entry i
  have hfree : (s.users p).pc = .itrunc t ∨ (s.users p).pc = .untype t →
      (s.dinode (s.inode i).ino).nlink = 0 := by
    intro hpc'
    obtain ⟨hvalid, hd, hnlink⟩ := hentry.free p t hvar hpc'
    rw [← hentry.clean (h.counted.pos hvar) hvalid hd]
    exact hnlink
  cases hp : (s.users p).pc with
  | itrunc t' =>
    rw [hp] at hpc
    cases hpc
    exact hfree (.inl hp)
  | untype t' =>
    rw [hp] at hpc
    cases hpc
    exact hfree (.inr hp)
  | iupdate t' =>
    rw [hp] at hpc
    obtain rfl := Option.some.inj hpc
    exact (hentry.clear p t' hvar hp).2.2
  | out | ilock | iread | iput | invalidate | unlock | drop | ialloc | iget =>
    rw [hp] at hpc
    cases hpc

/-- `iget` is called for allocated inodes. -/
theorem Inv.type_of_mayGet (h : s.Inv) (hmay : s.MayGet p k) : (s.dinode k).type ≠ 0 := by
  rcases hmay with ⟨-, hlinked⟩ | hpc
  · exact h.contents.linked k hlinked
  · exact (h.contents.fresh hpc).type

/-- and not for one that is about to be freed. -/
theorem Inv.nofree_of_mayGet (h : s.Inv) (hmay : s.MayGet p (s.inode i).ino) (q : ProcIx) (t : T)
    (hq : (s.users q).pc.freeing? = some t) : s.var t ≠ some i := by
  intro ht
  rcases hmay with ⟨-, hlinked⟩ | hpc
  · rw [h.nlink_of_freeing hq ht] at hlinked
    exact absurd hlinked (by decide)
  · obtain ⟨q', hq'⟩ := (h.contents.fresh hpc).dying t i ht rfl
    have hput := h.used.put (InodePc.put?_of_freeing? hq)
    obtain rfl := hput.1 q' (InodeUser.mem_uses_of_put? (InodePc.put?_of_dying? hq'))
    rw [InodePc.dying?_of_freeing? hq] at hq'
    cases hq'

theorem Inv.ino_ne (h : s.Inv) (hvar : s.var t = some i) (hij : j ≠ i)
    (hpos : 0 < (s.inode j).ref) : (s.inode j).ino ≠ (s.inode i).ino :=
  fun heq => hij (h.counted.unique hpos (h.counted.pos hvar) heq)

end Rely

/-! ### Every step keeps the entries -/

section Step

variable [Fintype T]

/-- A process works on entry `i` through `t`; the entry becomes `x` and the process `u`. -/
structure Works (s : Itable T) (p : ProcIx) (t : T) (i : InodeIx) (x : Inode) (u : InodeUser T)
    (s' : Itable T) : Prop where
  entry : s.var t = some i
  inode : s'.inode = update s.inode i x
  ino : x.ino = (s.inode i).ino
  dinode : ∀ k, k ≠ (s.inode i).ino → s'.dinode k = s.dinode k
  dirty : ∀ j, j ≠ i → s'.dirty j = s.dirty j
  var : s'.var = s.var
  users : s'.users = update s.users p u
  held : ∀ t', t' ≠ t → (t' ∈ u.held ↔ t' ∈ (s.users p).held)
  pc : ∀ t', t' ≠ t → u.pc.var? ≠ some t' ∧ (s.users p).pc.var? ≠ some t'

/-- How the owner of the lock leaves the entry. -/
structure Leaves (s : Itable T) (p : ProcIx) (t : T) (i : InodeIx) (x : Inode) (u : InodeUser T)
    (s' : Itable T) : Prop where
  locked : t ∈ u.locked
  alive : ∀ t', s.var t' = some i → (∀ q ≠ p, (s.users q).pc.dying? ≠ some t') →
    u.pc.dying? ≠ some t' → (s'.dinode (s.inode i).ino).type ≠ 0
  clean : x.valid = true → s'.dirty i = false →
    x.copy = s'.dinode (s.inode i).ino ∧ x.copy.type ≠ 0
  held : t ∈ u.held → x.valid = true ∧ x.copy.type ≠ 0
  dirty : s'.dirty i = true → Changing u t
  free : u.pc = .itrunc t ∨ u.pc = .untype t →
    x.valid = true ∧ s'.dirty i = false ∧ x.copy.nlink = 0
  clear : u.pc = .iupdate t → x.copy.type = 0 ∧ x.copy.nlink = 0 ∧
    (s'.dinode (s.inode i).ino).nlink = 0
  sole : u.pc.freeing? = some t → ∀ t', s.var t' = some i → t' = t

variable {x : Inode} {u : InodeUser T}

/-- The other entries are left alone. -/
theorem Inv.entry_of_ne (h : s.Inv) (hw : s.Works p t i x u s') (hij : j ≠ i) : s'.EntryOk j := by
  have hne : ∀ {t'}, s.var t' = some j → t' ≠ t := by
    rintro t' ht' rfl
    exact hij (Option.some.inj (ht'.symm.trans hw.entry))
  refine (h.contents.entry j).congr h.counted (sameAt_of_move ?_ ?_ (hw.dirty j hij) ?_ hw.users ?_ ?_)
  · rw [hw.inode, update_of_ne hij]
  · exact fun hpos => hw.dinode _ (h.ino_ne hw.entry hij hpos)
  · intro t'
    rw [hw.var]
  · exact fun t' ht' => hw.held t' (hne ht')
  · exact fun t' ht' => hw.pc t' (hne ht')

omit [Fintype T] in
/-- The call of `p` is the one that is given `t`. -/
theorem pc_ne {pc pc' : InodePc T} (hpc : pc.var? = some t) (hpc' : pc'.var? = some t) :
    ∀ t', t' ≠ t → pc.var? ≠ some t' ∧ pc'.var? ≠ some t' := by
  intro t' hne
  rw [hpc, hpc']
  exact ⟨fun heq => hne (Option.some.inj heq).symm, fun heq => hne (Option.some.inj heq).symm⟩

omit [Fintype T] in
/-- `iput` goes on with the inode that it frees. -/
theorem works_put {pc₀ pc : InodePc T} (hpc : (s.users p).pc = pc₀) (hput : pc₀.put? = some t)
    (hpc' : pc.var? = some t)
    (hvar : s.var t = some i) (hinode : s'.inode = update s.inode i x)
    (hino : x.ino = (s.inode i).ino)
    (hdinode : ∀ k, k ≠ (s.inode i).ino → s'.dinode k = s.dinode k)
    (hd : ∀ j, j ≠ i → s'.dirty j = s.dirty j) (hv : s'.var = s.var)
    (hu : s'.users = update s.users p ⟨pc, (s.users p).held⟩) :
    s.Works p t i x ⟨pc, (s.users p).held⟩ s' :=
  ⟨hvar, hinode, hino, hdinode, hd, hv, hu, fun _ _ => Iff.rfl,
    pc_ne hpc' (hpc ▸ InodePc.var?_of_put? hput)⟩

/-- It has the inode locked by its call. -/
theorem Inv.notMem_of_put (h : s.Inv) {pc : InodePc T} (hpc : (s.users p).pc = pc)
    (hput : pc.put? = some t) : t ∉ (s.users p).held :=
  (h.used.put (hpc ▸ hput)).2

/-- **The owner of the lock of an entry works on it**: only what this process does with it
matters. -/
theorem Inv.entry_owner (h : s.Inv) (hl : s'.Locks) (hw : s.Works p t i x u s')
    (he : s.Leaves p t i x u s') (j : InodeIx) : s'.EntryOk j := by
  rcases eq_or_ne j i with rfl | hij
  swap
  · exact h.entry_of_ne hw hij
  have hx : s'.inode j = x := by rw [hw.inode, update_self]
  have hself : s'.users p = u := by rw [hw.users, update_self]
  have hvar : s'.var t = some j := hw.var ▸ hw.entry
  have honly : ∀ {q t'}, t' ∈ (s'.users q).locked → s'.var t' = some j →
      s'.users q = u ∧ t' = t := by
    intro q t' hq ht'
    obtain ⟨rfl, rfl⟩ := hl.only (hself.symm ▸ he.locked) hvar hq ht'
    exact ⟨hself, rfl⟩
  have hpc : ∀ {q t'}, (s'.users q).pc.locked? = some t' → s'.var t' = some j →
      s'.users q = u ∧ t' = t := fun hq => honly (InodeUser.mem_locked.mpr (.inl hq))
  refine ⟨fun t' ht' hnot => ?_, fun _ => ?_, ?_, fun q t' hq ht' => ?_,
    fun hd => ⟨p, t, hvar, hself.symm ▸ he.dirty hd⟩, fun q t' ht' hq => ?_, fun q t' ht' hq => ?_,
    fun q t₁ t₂ hq ht₁ ht₂ => ?_⟩
  · rw [hx, hw.ino]
    refine he.alive t' (hw.var ▸ ht') (fun q hq => ?_) (hself ▸ hnot p)
    have hnot := hnot q
    rwa [hw.users, update_of_ne hq] at hnot
  · rw [hx, hw.ino]
    exact fun hv hd => (he.clean hv hd).1
  · rw [hx]
    exact fun hv hd => (he.clean hv hd).2
  · obtain ⟨heq, rfl⟩ := honly (InodeUser.mem_locked.mpr (.inr hq)) ht'
    rw [heq] at hq
    rw [hx]
    exact he.held hq
  · obtain ⟨heq, rfl⟩ := hpc (by rcases hq with hq | hq <;> rw [hq] <;> rfl) ht'
    rw [heq] at hq
    rw [hx]
    exact he.free hq
  · obtain ⟨heq, rfl⟩ := hpc (by rw [hq]; rfl) ht'
    rw [heq] at hq
    rw [hx, hw.ino]
    exact he.clear hq
  · obtain ⟨heq, rfl⟩ := hpc (InodePc.locked?_of_freeing? hq) ht₁
    rw [heq] at hq
    exact he.sole hq t₂ (hw.var ▸ ht₂)

omit [Fintype T] in
/-- The owner is not in a call, and has the inode. -/
theorem leaves_out (hpc : u.pc = .out) (ht : t ∈ u.held) (hvalid : x.valid = true)
    (htype : x.copy.type ≠ 0) (halive : (s'.dinode (s.inode i).ino).type ≠ 0)
    (hclean : s'.dirty i = false → x.copy = s'.dinode (s.inode i).ino) :
    s.Leaves p t i x u s' := by
  refine ⟨InodeUser.mem_locked.mpr (.inr ht), fun _ _ _ _ => halive,
    fun _ hd => ⟨hclean hd, htype⟩, fun _ => ⟨hvalid, htype⟩, fun _ => .inl ht, ?_, ?_, ?_⟩
  all_goals rw [hpc]
  · rintro (hout | hout) <;> cases hout
  · nofun
  · nofun

/-- `ilock` returns, with the inode in the table. -/
theorem Inv.entry_ret (h : s.Inv) (hpc : (s.users p).pc = .iread t) (hvar : s.var t = some i)
    (hino : x.ino = (s.inode i).ino) (hvalid : x.valid = true)
    (hcopy : x.copy = s.dinode (s.inode i).ino) (htype : x.copy.type ≠ 0)
    (hs' : s' = (s.setInode i x).ret p t) (hl : s'.Locks) (j : InodeIx) : s'.EntryOk j := by
  subst hs'
  refine h.entry_owner (u := ⟨.out, t :: (s.users p).held⟩) hl ⟨hvar, rfl, hino, fun _ _ => rfl,
    fun _ _ => rfl, rfl, rfl, fun t' ht' => ?_, fun t' ht' => ?_⟩
    (leaves_out rfl List.mem_cons_self hvalid htype (hcopy ▸ htype) fun _ => hcopy) j
  · rw [List.mem_cons, or_iff_right ht']
  · rw [hpc]
    exact ⟨nofun, fun heq => ht' (Option.some.inj heq).symm⟩

omit [Fintype T] in
/-- A process that is not in a call changes an inode that it has locked. -/
theorem works_out (hpc : (s.users p).pc = .out) (hvar : s.var t = some i)
    (hinode : s'.inode = update s.inode i x) (hino : x.ino = (s.inode i).ino)
    (hdinode : ∀ k, k ≠ (s.inode i).ino → s'.dinode k = s.dinode k)
    (hd : ∀ j, j ≠ i → s'.dirty j = s.dirty j) (hv : s'.var = s.var) (hu : s'.users = s.users) :
    s.Works p t i x (s.users p) s' := by
  refine ⟨hvar, hinode, hino, hdinode, hd, hv, ?_, fun _ _ => Iff.rfl, ?_⟩
  · rw [hu, update_eq_self]
  · rw [hpc]
    exact fun _ _ => ⟨nofun, nofun⟩

theorem Inv.entry_modify (h : s.Inv) {d : Dinode} (hpc : (s.users p).pc = .out)
    (ht : t ∈ (s.users p).held) (hvar : s.var t = some i)
    (hs' : s' = (s.setInode i
      { s.inode i with copy := { d with type := (s.inode i).copy.type } }).setDirty i true)
    (hl : s'.Locks) (j : InodeIx) : s'.EntryOk j := by
  obtain ⟨hvalid, htype⟩ := (h.contents.entry i).held p t ht hvar
  have halive := (h.contents.entry i).alive t hvar (h.not_dying_of_held ht)
  subst hs'
  refine h.entry_owner hl (works_out hpc hvar rfl ?_ (fun _ _ => rfl) (fun _ hj => update_of_ne hj ..)
    rfl rfl) (leaves_out hpc ht hvalid htype halive ?_) j
  · rfl
  · rw [setDirty_dirty, update_self]
    nofun

theorem Inv.entry_update (h : s.Inv) (hpc : (s.users p).pc = .out) (ht : t ∈ (s.users p).held)
    (hvar : s.var t = some i) (hs' : s' = (s.iupdate i).setDirty i false) (hl : s'.Locks)
    (j : InodeIx) : s'.EntryOk j := by
  obtain ⟨hvalid, htype⟩ := (h.contents.entry i).held p t ht hvar
  subst hs'
  have hself : ((s.iupdate i).setDirty i false).dinode (s.inode i).ino = (s.inode i).copy :=
    update_self _ _ _
  exact h.entry_owner hl (works_out hpc hvar (update_eq_self i s.inode).symm rfl
    (fun _ hk => update_of_ne hk ..) (fun _ hj => update_of_ne hj ..) rfl rfl)
    (leaves_out hpc ht hvalid htype (hself ▸ htype) fun _ => hself.symm) j

omit [Fintype T] in
theorem setInode_iupdate (s : Itable T) (i : InodeIx) (x : Inode) :
    (s.setInode i x).iupdate i = (s.setInode i x).setDinode x.ino x.copy := by
  unfold iupdate
  rw [setInode_inode, update_self]

theorem Inv.entry_trunc (h : s.Inv) (hpc : (s.users p).pc = .itrunc t) (hvar : s.var t = some i)
    (hs' : s' = ((s.setInode i
      { s.inode i with copy := (s.inode i).copy.trunc }).iupdate i).goto p (.untype t))
    (hl : s'.Locks) (j : InodeIx) : s'.EntryOk j := by
  obtain ⟨hvalid, hd, hnlink⟩ := (h.contents.entry i).free p t hvar (.inl hpc)
  have htype := (h.contents.entry i).typed hvalid hd
  rw [setInode_iupdate] at hs'
  subst hs'
  refine h.entry_owner hl (works_put hpc rfl rfl hvar rfl ?_ (fun _ hk => update_of_ne hk ..)
    (fun _ _ => rfl) rfl rfl) ⟨InodeUser.mem_locked.mpr (.inl rfl), fun _ _ _ _ => ?_, fun _ _ => ?_,
    fun ht => absurd ht (h.notMem_of_put hpc rfl), fun hd' => ?_, fun _ => ⟨hvalid, hd, hnlink⟩, nofun,
    fun _ t' => (h.contents.entry i).sole p t t' (by rw [hpc]; rfl) hvar⟩ j
  · rfl
  · rw [goto_dinode, setDinode_dinode, update_self]
    exact htype
  · rw [goto_dinode, setDinode_dinode, update_self]
    exact ⟨rfl, htype⟩
  · cases hd.symm.trans hd'

/-- Only `p` moves, and not out of a call that has freed an inode. -/
theorem Inv.alive_of_pc (h : s.Inv) {pc : InodePc T} (hvar : s.var t' = some i)
    (hother : ∀ q ≠ p, (s.users q).pc.dying? ≠ some t') (hself : pc.dying? ≠ some t')
    (hpc : (s.users p).pc.dying? = none ∨ (s.users p).pc.dying? = pc.dying?) :
    (s.dinode (s.inode i).ino).type ≠ 0 := by
  refine (h.contents.entry i).alive t' hvar fun q hq => ?_
  rcases eq_or_ne q p with rfl | hne
  · rcases hpc with hpc | hpc
    · rw [hpc] at hq
      cases hq
    · exact hself (hpc ▸ hq)
  · exact hother q hne hq

theorem Inv.entry_untype (h : s.Inv) (hpc : (s.users p).pc = .untype t) (hvar : s.var t = some i)
    (hs' : s' = ((s.setInode i
      { s.inode i with copy := { (s.inode i).copy with type := 0 } }).setDirty i true).goto p
        (.iupdate t))
    (hl : s'.Locks) (j : InodeIx) : s'.EntryOk j := by
  obtain ⟨hvalid, hd, hnlink⟩ := (h.contents.entry i).free p t hvar (.inr hpc)
  have hfreeing : (s.users p).pc.freeing? = some t := by
    rw [hpc]
    rfl
  subst hs'
  refine h.entry_owner hl (works_put hpc rfl rfl hvar rfl ?_ (fun _ _ => rfl)
    (fun _ hj => update_of_ne hj ..) rfl rfl) ⟨InodeUser.mem_locked.mpr (.inl rfl),
    fun t' ht' hother hself => h.alive_of_pc ht' hother hself (.inl (by rw [hpc]; rfl)),
    fun _ hd' => ?_, fun ht => absurd ht (h.notMem_of_put hpc rfl), fun _ => .inr (.inl rfl), ?_,
    fun _ => ⟨rfl, hnlink, h.nlink_of_freeing hfreeing hvar⟩,
    fun _ t' => (h.contents.entry i).sole p t t' hfreeing hvar⟩ j
  · rfl
  · rw [goto_dirty, setDirty_dirty, update_self] at hd'
    cases hd'
  · rintro (hout | hout) <;> cases hout

theorem Inv.entry_clear (h : s.Inv) (hpc : (s.users p).pc = .iupdate t) (hvar : s.var t = some i)
    (hs' : s' = (s.iupdate i).goto p (.invalidate t)) (hl : s'.Locks) (j : InodeIx) :
    s'.EntryOk j := by
  have hclear := (h.contents.entry i).clear p t hvar hpc
  subst hs'
  refine h.entry_owner hl (works_put hpc rfl rfl hvar (update_eq_self i s.inode).symm rfl
    (fun _ hk => update_of_ne hk ..) (fun _ _ => rfl) rfl rfl) ⟨InodeUser.mem_locked.mpr (.inl rfl),
    fun t' ht' _ hself => ?_, fun hvalid hd => ?_, fun ht => absurd ht (h.notMem_of_put hpc rfl),
    fun _ => .inr (.inr rfl), ?_, nofun, nofun⟩ j
  · -- the only variable for the entry is the one that is being dropped
    obtain rfl := (h.contents.entry i).sole p t t' (by rw [hpc]; rfl) hvar ht'
    exact absurd rfl hself
  · exact absurd hclear.1 ((h.contents.entry i).typed hvalid hd)
  · rintro (hout | hout) <;> cases hout

theorem Inv.entry_invalidate (h : s.Inv) (hpc : (s.users p).pc = .invalidate t)
    (hvar : s.var t = some i)
    (hs' : s' = ((s.setInode i { s.inode i with valid := false }).setDirty i false).goto p
      (.unlock t)) (hl : s'.Locks) (j : InodeIx) : s'.EntryOk j := by
  subst hs'
  refine h.entry_owner hl (works_put hpc rfl rfl hvar rfl ?_ (fun _ _ => rfl)
    (fun _ hj => update_of_ne hj ..) rfl rfl) ⟨InodeUser.mem_locked.mpr (.inl rfl),
    fun t' ht' hother hself => h.alive_of_pc ht' hother hself (.inr (by rw [hpc]; rfl)), nofun,
    fun ht => absurd ht (h.notMem_of_put hpc rfl), fun hd' => ?_, ?_, nofun, nofun⟩ j
  · rfl
  · rw [goto_dirty, setDirty_dirty, update_self] at hd'
    cases hd'
  · rintro (hout | hout) <;> cases hout

/-- `ilock` of an inode that is in the table. -/
theorem Inv.entry_found (h : s.Inv) (hpc : (s.users p).pc = .iread t) (hvar : s.var t = some i)
    (hvalid : (s.inode i).valid = true) (hl : (s.ret p t).Locks) (j : InodeIx) :
    (s.ret p t).EntryOk j := by
  have hd := h.not_dirty_of_iread hpc hvar
  have hentry := h.contents.entry i
  have hself : s.setInode i (s.inode i) = s := by
    unfold setInode
    rw [update_eq_self]
  exact h.entry_ret hpc hvar rfl hvalid (hentry.clean (h.counted.pos hvar) hvalid hd)
    (hentry.typed hvalid hd) (by rw [hself]) hl j

theorem Inv.entry_free (h : s.Inv) (hpc : (s.users p).pc = .iput t) (hvar : s.var t = some i)
    (href : (s.inode i).ref = 1) (hvalid : (s.inode i).valid = true)
    (hnlink : (s.inode i).copy.nlink = 0) (hfree : (s.inode i).lock = none)
    (hs' : s' = (s.setInode i { s.inode i with lock := some p }).goto p (.itrunc t))
    (hl : s'.Locks) (j : InodeIx) : s'.EntryOk j := by
  have hd := h.not_dirty hfree
  have hentry := h.contents.entry i
  subst hs'
  refine h.entry_owner hl (works_put hpc rfl rfl hvar rfl ?_ (fun _ _ => rfl) (fun _ _ => rfl) rfl rfl)
    ⟨InodeUser.mem_locked.mpr (.inl rfl),
    fun t' ht' hother hself => h.alive_of_pc ht' hother hself (.inl (by rw [hpc]; rfl)),
    fun _ _ => ⟨hentry.clean (h.counted.pos hvar) hvalid hd, hentry.typed hvalid hd⟩,
    fun ht => absurd ht (h.notMem_of_put hpc rfl), fun hd' => ?_, fun _ => ⟨hvalid, hd, hnlink⟩, nofun,
    fun _ t' => h.counted.var_eq href hvar⟩ j
  · rfl
  · cases hd.symm.trans hd'

theorem Inv.entry_pass (h : s.Inv) {s₁ : Itable T} {pc : InodePc T}
    (hinode : ∀ j, SameInode (s.inode j) (s₁.inode j) ∧ (s₁.inode j).ref = (s.inode j).ref)
    (hsame : s₁.dinode = s.dinode ∧ s₁.dirty = s.dirty ∧ s₁.var = s.var ∧ s₁.users = s.users)
    (hdying : (s.users p).pc.dying? = none ∨ (s.users p).pc.dying? = pc.dying?)
    (hold : ∀ t, (s.users p).pc ≠ .iupdate t ∧ (s.users p).pc ≠ .invalidate t)
    (hnew : pc.freeing? = none) (j : InodeIx) : (s₁.goto p pc).EntryOk j := by
  obtain ⟨hdinode, hd, hvar, husers⟩ := hsame
  have husers' : (s₁.goto p pc).users = update s.users p ⟨pc, (s.users p).held⟩ := by
    rw [← husers]
    rfl
  refine (h.contents.entry j).pass (hinode j).1 (hinode j).2 hdinode hd hvar husers'
    (fun t ht => ?_) hold hnew
  rcases hdying with hnone | heq
  · rw [hnone] at ht
    cases ht
  · rw [← heq, ht]

omit [Fintype T] in
/-- The process is in no call that has to do with a variable. -/
theorem pc_of_var? {pc : InodePc T} (hpc : pc.var? = none) :
    pc.dying? = none ∧ pc.freeing? = none ∧ ∀ t, pc ≠ .iupdate t ∧ pc ≠ .invalidate t := by
  cases pc with
  | out | ialloc dev type inum | iget k => exact ⟨rfl, rfl, fun t => ⟨nofun, nofun⟩⟩
  | ilock | iread | iput | itrunc | untype | iupdate | invalidate | unlock | drop => cases hpc

variable [DecidableEq T]

theorem Inv.entry_iunlock (h : s.Inv) (hpc : (s.users p).pc = .out) (hvar : s.var t = some i)
    (hd : s.dirty i = false) (j : InodeIx) :
    ((s.setInode i { s.inode i with lock := none }).setUser p
      ⟨.out, (s.users p).held.erase t⟩).EntryOk j := by
  refine (h.contents.entry j).move (u := ⟨.out, (s.users p).held.erase t⟩)
    (SameInode.update (by constructor <;> rfl) j) (update_field Inode.ref ?_ j) rfl rfl rfl rfl ?_
    (fun _ => List.mem_of_mem_erase) ?_ rfl
  · rfl
  · rw [hpc]
    nofun
  · unfold Changing
    rw [hpc]
    rintro hdj t' ht' (hheld | hpc' | hpc')
    · have hne : t' ≠ t := by
        rintro rfl
        rw [hvar] at ht'
        cases ht'
        rw [hd] at hdj
        cases hdj
      exact .inl ((List.mem_erase_of_ne hne).mpr hheld)
    all_goals cases hpc'

/-- One more reference to an inode that nobody is about to free. -/
theorem Inv.entry_take (h : s.Inv) (hpos : 0 < (s.inode i).ref) (ht : s.var t = none)
    (hnew : (s.dinode (s.inode i).ino).type ≠ 0)
    (hnofree : ∀ q t', (s.users q).pc.freeing? = some t' → s.var t' ≠ some i) (j : InodeIx) :
    ((s.setInode i { s.inode i with ref := (s.inode i).ref + 1 }).setVar t (some i)).EntryOk j := by
  rcases eq_or_ne j i with rfl | hij
  · exact (h.contents.entry j).fill hpos (fun q hq => h.used.var hq ht) hnew hnofree
      (SameInode.update (by constructor <;> rfl) j) rfl rfl ht rfl rfl
  · have hsame : update s.inode i { s.inode i with ref := (s.inode i).ref + 1 } j
        = s.inode j := update_of_ne hij _ _
    refine (h.contents.entry j).congr h.counted ⟨?_, ?_, fun _ => rfl, rfl, fun t' => ?_,
      fun _ _ _ => Iff.rfl, fun _ _ _ _ => rfl⟩
    · rw [setVar_inode, setInode_inode, hsame]
      exact ⟨rfl, rfl, rfl⟩
    · rw [setVar_inode, setInode_inode, hsame]
    · rw [setVar_var]
      rcases eq_or_ne t' t with rfl | hne
      · rw [update_self, ht]
        exact ⟨fun heq => absurd (Option.some.inj heq).symm hij, nofun⟩
      · rw [update_of_ne hne, setInode_var]

/-- `iget` of an inode that is not in the table. -/
theorem Inv.entry_recycle (h : s.Inv) (hmay : s.MayGet p k) (ht : s.var t = none)
    (hfree : (s.inode i).ref = 0)
    (hs' : s' = ((s.setInode i { s.inode i with ino := k, ref := 1, valid := false }).setVar t
      (some i)).goto p .out) (hl : s'.Locks) (j : InodeIx) : s'.EntryOk j := by
  subst hs'
  rcases eq_or_ne j i with rfl | hij
  · -- nobody can have the lock of an entry that is not in use
    have hlock : (s.inode j).lock = none := by
      rcases hlock : (s.inode j).lock with _ | q
      · rfl
      · obtain ⟨t', -, ht'⟩ := h.locks.exists_of_lock hlock
        exact absurd ht' (h.counted.var_ne hfree t')
    have hentry : (((s.setInode j { s.inode j with ino := k, ref := 1, valid := false }).setVar t
        (some j)).goto p .out).inode j = { s.inode j with ino := k, ref := 1, valid := false } :=
      update_self _ _ _
    refine EntryOk.of_unlocked hl ?_ ?_ ?_ ?_ (h.not_dirty hlock)
    · rw [hentry]
      exact hlock
    · intro t' _ _
      rw [hentry]
      exact h.type_of_mayGet hmay
    · rw [hentry]
      nofun
    · rw [hentry]
      nofun
  · refine (h.contents.entry j).congr h.counted (sameAt_of_move (p := p)
      (u := ⟨.out, (s.users p).held⟩) ?_ (fun _ => rfl) rfl (fun t' => ?_) rfl (fun _ _ => Iff.rfl)
      fun t' _ => ⟨nofun, ?_⟩)
    · rw [goto_inode, setVar_inode, setInode_inode, update_of_ne hij]
    · rw [goto_var, setVar_var]
      rcases eq_or_ne t' t with rfl | hne
      · rw [update_self, ht]
        exact ⟨fun heq => absurd (Option.some.inj heq).symm hij, nofun⟩
      · rw [update_of_ne hne, setInode_var]
    · rw [hmay.var?_eq]
      nofun

theorem Inv.entry_unref (h : s.Inv) (hput : (s.users p).pc.put? = some t)
    (hlock : (s.users p).pc.locked? = none) (j : InodeIx) :
    (s.unref p t i).EntryOk j := by
  have hentry := h.contents.entry j
  have hvar : ∀ {t'}, (s.unref p t i).var t' = some j → t' ≠ t ∧ s.var t' = some j := by
    intro t' ht'
    rw [unref_var] at ht'
    rcases eq_or_ne t' t with rfl | hne
    · rw [update_self] at ht'
      cases ht'
    · rw [update_of_ne hne] at ht'
      exact ⟨hne, ht'⟩
  have husers : (s.unref p t i).users = update s.users p ⟨.out, (s.users p).held⟩ := rfl
  -- the process is done with the only variable of its call
  have hpc : ∀ {q t'}, t' ≠ t → (s.users q).pc.var? = some t' →
      (s.unref p t i).users q = s.users q := by
    intro q t' hne hq
    have hqp : q ≠ p := by
      rintro rfl
      rw [InodePc.var?_of_put? hput] at hq
      exact hne (Option.some.inj hq).symm
    rw [husers, update_of_ne hqp]
  have hheld : ∀ q, ((s.unref p t i).users q).held = (s.users q).held := by
    rw [husers]
    refine update_field InodeUser.held ?_
    rfl
  have hle : ((s.unref p t i).inode j).ref ≤ (s.inode j).ref := by
    rw [unref_inode]
    rcases eq_or_ne j i with rfl | hij
    · rw [update_self]
      exact Nat.sub_le _ _
    · rw [update_of_ne hij]
  refine hentry.carry (SameInode.update (by constructor <;> rfl) j) (fun hpos => hpos.trans_le hle)
    (fun _ => rfl) rfl (fun t' ht' hnot => ?_) (fun q t' ht' hq => ?_) (fun _ q t' ht' huse => ?_)
    (fun q t' ht' hq => ?_)
  · obtain ⟨hne, ht'⟩ := hvar ht'
    refine hentry.alive t' ht' fun q hq => hnot q ?_
    rw [hpc hne (InodePc.var?_of_put? (InodePc.put?_of_dying? hq))]
    exact hq
  · exact ⟨(hvar ht').2, hheld q ▸ hq⟩
  · have hlocked := Changing.mem_locked huse
    have hne : t' ≠ t := by
      rintro rfl
      obtain rfl := (h.used.put hput).1 q (InodeUser.mem_uses_of_locked hlocked)
      rw [InodeUser.mem_locked, hlock, or_iff_right nofun] at hlocked
      exact (h.used.put hput).2 hlocked
    rw [unref_var, update_of_ne hne, Changing, hheld]
    refine ⟨ht', huse.imp_right fun hq => ?_⟩
    rw [hpc hne (InodePc.var?_of_locked? (locked?_of_changing hq))]
    exact hq
  · have hqp : q ≠ p := by
      rintro rfl
      rw [husers, update_self] at hq
      cases hq
    refine ⟨(hvar ht').2, ?_, fun t₂ ht₂ => (hvar ht₂).2⟩
    rw [husers, update_of_ne hqp]

omit [DecidableEq T] in
/-- `ialloc` takes a free inode.  An entry that is still for it is about to be dropped. -/
theorem Inv.entry_alloc (h : s.Inv) {type : FileType} (hpc : (s.users p).pc.var? = none)
    (hfree : (s.dinode k).type = 0) (j : InodeIx) :
    ((s.setDinode k { Dinode.zero with type := type.1 }).goto p (.iget k)).EntryOk j := by
  set d : Dinode := { Dinode.zero with type := type.1 } with hd
  have hentry : (s.setDinode k d).EntryOk j := by
    have hold := h.contents.entry j
    have hdinode : ∀ k', k' ≠ k → (s.setDinode k d).dinode k' = s.dinode k' :=
      fun k' hk' => update_of_ne hk' _ _
    have hself : (s.setDinode k d).dinode k = d := update_self _ _ _
    refine ⟨fun t ht hnot => ?_, fun hpos hv hdj => ?_, hold.typed, hold.held, hold.dirty, hold.free,
      fun q t ht hq => ?_, hold.sole⟩
    · rcases eq_or_ne (s.inode j).ino k with hk | hk
      · rw [setDinode_inode, hk, hself]
        exact type.2
      · rw [setDinode_inode, hdinode _ hk]
        exact hold.alive t ht hnot
    · rcases eq_or_ne (s.inode j).ino k with hk | hk
      · have htyped := hold.typed hv hdj
        rw [hold.clean hpos hv hdj, hk] at htyped
        exact absurd hfree htyped
      · rw [setDinode_inode, hdinode _ hk]
        exact hold.clean hpos hv hdj
    · obtain ⟨htype, hcopy, hnlink⟩ := hold.clear q t ht hq
      refine ⟨htype, hcopy, ?_⟩
      rcases eq_or_ne (s.inode j).ino k with hk | hk
      · rw [setDinode_inode, hk, hself]
        rfl
      · rw [setDinode_inode, hdinode _ hk]
        exact hnlink
  refine hentry.pass ⟨rfl, rfl, rfl⟩ rfl rfl rfl rfl rfl ?_ (pc_of_var? hpc).2.2 rfl
  intro t ht
  rw [setDinode_users, (pc_of_var? hpc).1] at ht
  cases ht

theorem Inv.entry_step (h : s.Inv) (hstep : s.Does p s') (j : InodeIx) : s'.EntryOk j := by
  have hl : s'.Locks := h.locks.step h.used hstep
  cases hstep with
  | @hit k t i hmay ht hpos hino =>
    subst hino
    have htake := h.entry_take hpos ht (h.type_of_mayGet hmay) (h.nofree_of_mayGet hmay) j
    refine htake.pass ⟨rfl, rfl, rfl⟩ rfl rfl rfl rfl rfl ?_ (pc_of_var? hmay.var?_eq).2.2 rfl
    intro t' ht'
    rw [setVar_users, setInode_users, (pc_of_var? hmay.var?_eq).1] at ht'
    cases ht'
  | recycle hmay ht hmiss hfree => exact h.entry_recycle hmay ht hfree rfl hl j
  | @dup t t' i hpc hvar hkept ht =>
    refine h.entry_take (h.counted.pos hvar) ht ?_ ?_ j
    · exact (h.contents.entry i).alive t hvar fun q hq => hkept q (InodePc.put?_of_dying? hq)
    · intro q t₁ hq ht₁
      obtain rfl := (h.contents.entry i).sole q t₁ t hq ht₁ hvar
      exact hkept q (InodePc.put?_of_freeing? hq)
  | ilock hpc | iput hpc =>
    apply h.entry_pass
    · exact fun _ => ⟨⟨rfl, rfl, rfl⟩, rfl⟩
    · exact ⟨rfl, rfl, rfl, rfl⟩
    · exact .inl (by rw [hpc]; rfl)
    · rw [hpc]
      exact fun _ => ⟨nofun, nofun⟩
    · rfl
  | lock hpc | unlock hpc =>
    apply h.entry_pass
    · refine fun j => ⟨SameInode.update (by constructor <;> rfl) j, update_field Inode.ref ?_ j⟩
      rfl
    · exact ⟨rfl, rfl, rfl, rfl⟩
    · exact .inr (by rw [hpc]; rfl)
    · rw [hpc]
      exact fun _ => ⟨nofun, nofun⟩
    · rfl
  | search hvar hget hvar' hget' =>
    apply h.entry_pass
    · exact fun _ => ⟨⟨rfl, rfl, rfl⟩, rfl⟩
    · exact ⟨rfl, rfl, rfl, rfl⟩
    · exact .inl (pc_of_var? hvar).1
    · exact (pc_of_var? hvar).2.2
    · exact (pc_of_var? hvar').2.1
  | found hpc hvar hvalid => exact h.entry_found hpc hvar hvalid hl j
  | read hpc hvar hvalid htype =>
    refine h.entry_ret hpc hvar ?_ ?_ ?_ ?_ rfl hl j
    any_goals rfl
    exact htype
  | modify hpc ht hvar => exact h.entry_modify hpc ht hvar rfl hl j
  | update hpc ht hvar => exact h.entry_update hpc ht hvar rfl hl j
  | iunlock hpc ht hvar hd => exact h.entry_iunlock hpc hvar hd j
  | free hpc hvar href hvalid hnlink hlock =>
    exact h.entry_free hpc hvar href hvalid hnlink hlock rfl hl j
  | unref hput hlock hvar => exact h.entry_unref hput hlock j
  | trunc hpc hvar => exact h.entry_trunc hpc hvar rfl hl j
  | untype hpc hvar => exact h.entry_untype hpc hvar rfl hl j
  | clear hpc hvar => exact h.entry_clear hpc hvar rfl hl j
  | invalidate hpc hvar => exact h.entry_invalidate hpc hvar rfl hl j
  | alloc hvar hget hfree => exact h.entry_alloc hvar hfree j

/-! ### Links and new inodes -/

theorem Inv.dinode_step (h : s.Inv) (hstep : s.Does p s') (k : Ino) :
    s'.dinode k = s.dinode k ∨
      ((s.dinode k).type = 0 ∧ (s'.dinode k).type ≠ 0 ∧ (s'.dinode k).nlink = 0 ∧
        (s'.users p).pc = .iget k) ∨
      ∃ t i, s.var t = some i ∧ s'.var t = some i ∧ (s.inode i).ino = k ∧
        (∀ q, (s.users q).pc.dying? ≠ some t) ∧ ((s'.dinode k).type ≠ 0 ∨
          (s.users p).pc = .iupdate t ∧ (s'.dinode k).type = 0 ∧ (s'.dinode k).nlink = 0) := by
  have hsame : ∀ {k' : Ino} {d : Dinode}, k ≠ k' → update s.dinode k' d k = s.dinode k :=
    fun hk => update_of_ne hk _ _
  have hnot : ∀ {t : T}, (s.users p).pc.locked? = some t → (s.users p).pc.dying? = none →
      ∀ q, (s.users q).pc.dying? ≠ some t := by
    intro t hlocked hdying
    refine h.not_dying (InodeUser.mem_uses.mpr (.inl (InodePc.var?_of_locked? hlocked))) ?_
    rw [hdying]
    nofun
  cases hstep with
  | hit | recycle | dup | ilock | lock | found | read | modify | iunlock | iput | free | unref
  | untype | invalidate | unlock | search => exact .inl rfl
  | @update t i hpc ht hvar =>
    rcases eq_or_ne k (s.inode i).ino with rfl | hk
    · refine .inr (.inr ⟨t, i, hvar, hvar, rfl, h.not_dying_of_held ht, .inl ?_⟩)
      rw [setDirty_dinode, iupdate_dinode, update_self]
      exact ((h.contents.entry i).held p t ht hvar).2
    · exact .inl (hsame hk)
  | @trunc t i hpc hvar =>
    obtain ⟨hvalid, hd, -⟩ := (h.contents.entry i).free p t hvar (.inl hpc)
    rw [setInode_iupdate]
    rcases eq_or_ne k (s.inode i).ino with rfl | hk
    · refine .inr (.inr ⟨t, i, hvar, hvar, rfl, hnot (by rw [hpc]; rfl) (by rw [hpc]; rfl),
        .inl ?_⟩)
      rw [goto_dinode, setDinode_dinode, update_self]
      exact (h.contents.entry i).typed hvalid hd
    · exact .inl (hsame hk)
  | @clear t i hpc hvar =>
    rcases eq_or_ne k (s.inode i).ino with rfl | hk
    · refine .inr (.inr ⟨t, i, hvar, hvar, rfl, hnot (by rw [hpc]; rfl) (by rw [hpc]; rfl),
        .inr ⟨hpc, ?_⟩⟩)
      rw [goto_dinode, iupdate_dinode, update_self]
      obtain ⟨htype, hnlink, -⟩ := (h.contents.entry i).clear p t hvar hpc
      exact ⟨htype, hnlink⟩
    · exact .inl (hsame hk)
  | @alloc k' type hvar hget hfree =>
    rcases eq_or_ne k k' with rfl | hk
    · refine .inr (.inl ⟨hfree, ?_⟩)
      rw [goto_dinode, setDinode_dinode, update_self, goto_users, update_self]
      exact ⟨type.2, rfl, rfl⟩
    · exact .inl (hsame hk)

theorem Inv.linked_step (h : s.Inv) (hstep : s.Does p s') (k : Ino)
    (hk : 0 < (s'.dinode k).nlink) : (s'.dinode k).type ≠ 0 := by
  rcases h.dinode_step hstep k with heq | ⟨-, htype, -⟩ | ⟨t, i, -, -, -, -, htype | ⟨-, -, hnlink⟩⟩
  · rw [heq] at hk ⊢
    exact h.contents.linked k hk
  · exact htype
  · exact htype
  · rw [hnlink] at hk
    exact absurd hk (by decide)

/-- The inode `ialloc` has taken is not touched. -/
theorem Fresh.dinode_step (hf : s.Fresh q k) (h : s.Inv) (hstep : s.Does p s') :
    s'.dinode k = s.dinode k := by
  rcases h.dinode_step hstep k with heq | ⟨hfree, -⟩ | ⟨t, i, hvar, -, hino, hnot, -⟩
  · exact heq
  · exact absurd hfree hf.type
  · obtain ⟨q', hq'⟩ := hf.dying t i hvar hino
    exact absurd hq' (hnot q')

omit [Fintype T] [DecidableEq T] in
/-- Nobody else calls `iget` for it. -/
theorem Fresh.ne_of_mayGet (hf : s.Fresh q k) (hq : q ≠ p) {k' : Ino} (hmay : s.MayGet p k') :
    k' ≠ k := by
  rintro rfl
  rcases hmay with ⟨-, hlinked⟩ | hpc
  · rw [hf.nlink] at hlinked
    exact absurd hlinked (by decide)
  · exact hq (hf.only p hpc).symm

/-- A step of another process, which may be that it takes another inode. -/
theorem Inv.fresh_other (h : s.Inv) (hstep : s.Does p s') {u : InodeUser T}
    (husers : s'.users = update s.users p u)
    (hu : ∀ k, u.pc = .iget k → (s.dinode k).type = 0)
    (hdying : ∀ t, (s.users p).pc.dying? = some t → s'.var t ≠ none → u.pc.dying? = some t)
    (hvar : s.Fresh q k → ∀ t i, s'.var t = some i → (s'.inode i).ino = k →
      s.var t = some i ∧ (s.inode i).ino = k)
    (hne : q ≠ p) (hq : (s'.users q).pc = .iget k) : s'.Fresh q k := by
  rw [husers, update_of_ne hne] at hq
  have hf := h.contents.fresh hq
  have hdinode := hf.dinode_step h hstep
  refine ⟨hdinode ▸ hf.type, hdinode ▸ hf.nlink, fun t i ht hi => ?_, fun q' hq' => ?_⟩
  · obtain ⟨ht₀, hi₀⟩ := hvar hf t i ht hi
    obtain ⟨q', hq'⟩ := hf.dying t i ht₀ hi₀
    refine ⟨q', ?_⟩
    rw [husers]
    rcases eq_or_ne q' p with rfl | hne'
    · rw [update_self]
      exact hdying t hq' (by rw [ht]; nofun)
    · rw [update_of_ne hne']
      exact hq'
  · rw [husers] at hq'
    rcases eq_or_ne q' p with rfl | hne'
    · rw [update_self] at hq'
      exact absurd (hu k hq') hf.type
    · rw [update_of_ne hne'] at hq'
      exact hf.only q' hq'

/-- A step of `p`, which does not end up before the `iget` of `ialloc`. -/
theorem Inv.fresh_move (h : s.Inv) (hstep : s.Does p s') {u : InodeUser T}
    (husers : s'.users = update s.users p u) (hu : ∀ k, u.pc ≠ .iget k)
    (hdying : ∀ t, (s.users p).pc.dying? = some t → s'.var t ≠ none → u.pc.dying? = some t)
    (hvar : q ≠ p → s.Fresh q k → ∀ t i, s'.var t = some i → (s'.inode i).ino = k →
      s.var t = some i ∧ (s.inode i).ino = k)
    (hq : (s'.users q).pc = .iget k) : s'.Fresh q k := by
  have hne : q ≠ p := by
    rintro rfl
    rw [husers, update_self] at hq
    exact hu k hq
  exact h.fresh_other hstep husers (fun k hk => absurd hk (hu k)) hdying (hvar hne) hne hq

theorem Inv.fresh_pass (h : s.Inv) (hstep : s.Does p s') {u : InodeUser T}
    (husers : s'.users = update s.users p u) (hu : ∀ k, u.pc ≠ .iget k)
    (hdying : ∀ t, (s.users p).pc.dying? = some t → u.pc.dying? = some t) (hv : s'.var = s.var)
    (hino : ∀ i, (s'.inode i).ino = (s.inode i).ino) (hq : (s'.users q).pc = .iget k) :
    s'.Fresh q k := by
  refine h.fresh_move hstep husers hu (fun t ht _ => hdying t ht) ?_ hq
  rintro - - t i ht hi
  exact ⟨hv ▸ ht, hino i ▸ hi⟩

theorem Inv.fresh_alloc (h : s.Inv) {type : FileType} (hpc : (s.users p).pc.var? = none)
    (hfree : (s.dinode k).type = 0) :
    ((s.setDinode k { Dinode.zero with type := type.1 }).goto p (.iget k)).Fresh p k := by
  refine ⟨?_, ?_, fun t i ht hi => ?_, fun q hq => ?_⟩
  · rw [goto_dinode, setDinode_dinode, update_self]
    exact type.2
  · rw [goto_dinode, setDinode_dinode, update_self]
    rfl
  · -- the inode is free, so whoever has a reference is about to drop it
    by_contra hnot
    refine (h.contents.entry i).alive t ht (fun q hq => hnot ⟨q, ?_⟩) (hi ▸ hfree)
    have hne : q ≠ p := by
      rintro rfl
      rw [(pc_of_var? hpc).1] at hq
      cases hq
    rw [goto_users, update_of_ne hne]
    exact hq
  · by_contra hne
    rw [goto_users, update_of_ne hne] at hq
    exact (h.contents.fresh hq).type hfree

theorem Inv.fresh_step (h : s.Inv) (hstep : s.Does p s') (hq : (s'.users q).pc = .iget k) :
    s'.Fresh q k := by
  have hself : s.users = update s.users p (s.users p) :=
    (update_eq_self p s.users).symm
  have hout : ∀ {t : T} {v : Option T}, (s.users p).pc.var? = none → (s.users p).pc.dying? = some t →
      v = some t := by
    intro t v hvar hdying
    rw [(pc_of_var? hvar).1] at hdying
    cases hdying
  -- the entry of a reference that is new
  have htake : ∀ {t t' : T} {i i' : InodeIx}, (s.inode i).ino ≠ k →
      update s.var t (some i) t' = some i' → (s.inode i').ino = k →
        s.var t' = some i' ∧ (s.inode i').ino = k := by
    intro t t' i i' hne ht' hi'
    rcases eq_or_ne t' t with rfl | hne'
    · rw [update_self] at ht'
      cases ht'
      exact absurd hi' hne
    · rw [update_of_ne hne'] at ht'
      exact ⟨ht', hi'⟩
  have hino : ∀ {i i' : InodeIx} {x : Inode}, x.ino = (s.inode i).ino →
      (update s.inode i x i').ino = (s.inode i').ino :=
    fun hx => update_field Inode.ino hx _
  have href : ∀ (i i' : InodeIx) (r : ℕ),
      (update s.inode i { s.inode i with ref := r } i').ino = (s.inode i').ino := by
    intro i i' r
    apply hino
    rfl
  have hdoes := hstep
  cases hstep with
  | @hit k' t i hmay ht hpos hk =>
    subst hk
    refine h.fresh_move (u := ⟨.out, (s.users p).held⟩) hdoes rfl nofun
      (fun _ hd _ => hout hmay.var?_eq hd) ?_ hq
    intro hne hf t' i' ht' hi'
    rw [goto_inode, setVar_inode, setInode_inode, href] at hi'
    exact htake (hf.ne_of_mayGet hne hmay) ht' hi'
  | @recycle k' t i hmay ht hmiss hfree =>
    refine h.fresh_move (u := ⟨.out, (s.users p).held⟩) hdoes rfl nofun
      (fun _ hd _ => hout hmay.var?_eq hd) ?_ hq
    intro hne hf t' i' ht' hi'
    rw [goto_inode, setVar_inode, setInode_inode] at hi'
    rcases eq_or_ne i' i with rfl | hii
    · rw [update_self] at hi'
      exact absurd hi' (hf.ne_of_mayGet hne hmay)
    · rw [update_of_ne hii] at hi'
      rw [goto_var, setVar_var] at ht'
      rcases eq_or_ne t' t with rfl | htt
      · rw [update_self] at ht'
        exact absurd (Option.some.inj ht').symm hii
      · rw [update_of_ne htt] at ht'
        exact ⟨ht', hi'⟩
  | @dup t t' i hpc hvar hkept ht =>
    refine h.fresh_move (u := s.users p) hdoes hself ?_ (fun _ hd _ => hd) ?_ hq
    · rw [hpc]
      nofun
    · intro hne hf t₁ i₁ ht₁ hi₁
      rw [setVar_inode, setInode_inode, href] at hi₁
      refine htake (fun hk => ?_) ht₁ hi₁
      obtain ⟨q', hq'⟩ := hf.dying t i hvar hk
      exact hkept q' (InodePc.put?_of_dying? hq')
  | @unref t i hput hlock hvar =>
    refine h.fresh_move (u := ⟨.out, (s.users p).held⟩) hdoes rfl nofun ?_ ?_ hq
    · -- the variable that is let go of is the one of the call
      intro t' ht' hne
      have heq := InodePc.put?_of_dying? ht'
      rw [hput] at heq
      cases heq
      rw [unref_var, update_self] at hne
      exact absurd rfl hne
    · intro hne hf t' i' ht' hi'
      rw [unref_inode, href] at hi'
      rw [unref_var] at ht'
      rcases eq_or_ne t' t with rfl | htt
      · rw [update_self] at ht'
        cases ht'
      · rw [update_of_ne htt] at ht'
        exact ⟨ht', hi'⟩
  | modify hpc | update hpc =>
    refine h.fresh_pass (u := s.users p) hdoes hself ?_ (fun _ hd => hd) rfl (fun i => ?_) hq
    · rw [hpc]
      nofun
    · first | rfl | exact hino rfl
  | ilock hpc | iput hpc | found hpc | clear hpc =>
    refine h.fresh_pass hdoes rfl nofun ?_ rfl (fun _ => rfl) hq
    rw [hpc]
    nofun
  | lock hpc | read hpc | iunlock hpc | free hpc | trunc hpc | untype hpc =>
    refine h.fresh_pass hdoes rfl nofun ?_ rfl (fun _ => hino rfl) hq
    rw [hpc]
    nofun
  | invalidate hpc | unlock hpc =>
    refine h.fresh_pass hdoes rfl nofun ?_ rfl (fun _ => hino rfl) hq
    rw [hpc]
    exact fun _ hd => hd
  | search hvar hget hvar' hget' =>
    exact h.fresh_pass hdoes rfl hget' (fun _ => hout hvar) rfl (fun _ => rfl) hq
  | @alloc k' type hvar hget hfree =>
    rcases eq_or_ne q p with rfl | hne
    · rw [goto_users, update_self] at hq
      cases hq
      exact h.fresh_alloc hvar hfree
    · refine h.fresh_other (u := ⟨.iget k', (s.users p).held⟩) hdoes rfl ?_ ?_ ?_ hne hq
      · intro k'' hk
        cases hk
        exact hfree
      · exact fun _ hd _ => hout hvar hd
      · exact fun _ t i ht hi => ⟨ht, hi⟩

theorem Inv.step (h : s.Inv) (hstep : s.Does p s') : s'.Inv :=
  ⟨h.counted.step hstep, h.used.step hstep, h.locks.step h.used hstep,
    h.entry_step hstep, h.linked_step hstep, h.fresh_step hstep⟩

end Step

end Itable

end Xv6Zig
