/-
Xv6Zig/InodeRuns.lean

The inode table over whole runs (`kernel/fs.c`).

Two comments of the source do not hold as they stand.  "If that was the last
reference and the inode has no links to it, free the inode": when an inode was just
freed and its number is taken by `ialloc`, `iget` finds the old entry, and the process
that frees it drops its own reference without a second look.  "`iput()` clears
`ip->valid` if `ip->ref` has fallen to zero": it does so for inodes that it frees only.

`Good` excludes that a last reference is dropped like this, that an `iput` drops the
last one to an inode from `ialloc` that nobody has looked at, and that an inode changes
of which a free entry has a copy.  Main result: `inodes_ok`, of which the most holds in
every run.
-/
import Xv6Zig.Lib.Outcome
import Xv6Zig.InodeContents

namespace Xv6Zig

open Lib Function

namespace Itable

variable {T : Type*} [DecidableEq T] {s s' : Itable T} {p q : ProcIx}
variable {i j : InodeIx} {t t' : T} {k : Ino}

/-! ### What a step leaves alone -/

namespace Does

theorem users_of_ne (h : s.Does p s') (hq : q ≠ p) : s'.users q = s.users q := by
  cases h with
  | dup | modify | update => rfl
  | hit | recycle | ilock | lock | found | read | iunlock | iput | free | unref | trunc | untype
  | clear | invalidate | unlock | search | alloc => exact update_of_ne hq _ _

/-- A variable stays as it is, but for the one whose reference is dropped. -/
theorem kept (h : s.Does p s') (ht : s.var t = some i) :
    s'.var t = some i ∨ s' = s.unref p t i ∧ (s.users p).pc.put? = some t ∧
      (s.users p).pc.locked? = none ∧ ((s.users p).pc = .iput t → (s.inode i).ref = 1 →
        (s.inode i).valid = true → (s.inode i).copy.nlink ≠ 0) := by
  have hfill : ∀ {t₁ : T} {x : Option InodeIx}, s.var t₁ = none →
      Function.update s.var t₁ x t = some i := by
    intro t₁ x ht₁
    have hne : t ≠ t₁ := by
      rintro rfl
      cases ht.symm.trans ht₁
    rw [update_of_ne hne, ht]
  cases h with
  | hit hmay ht₁ => exact .inl (hfill ht₁)
  | recycle hmay ht₁ => exact .inl (hfill ht₁)
  | dup hpc hvar hkept ht₁ => exact .inl (hfill ht₁)
  | @unref t₁ i₁ hput hlock hvar hlast =>
    rcases eq_or_ne t t₁ with rfl | hne
    · cases ht.symm.trans hvar
      exact .inr ⟨rfl, hput, hlock, hlast⟩
    · rw [unref_var, update_of_ne hne]
      exact .inl ht
  | ilock | lock | found | read | modify | update | iunlock | iput | free | trunc | untype | clear
  | invalidate | unlock | search | alloc => exact .inl ht

/-- What becomes of a process before the `iget` of `ialloc`. -/
theorem iget (h : s.Does p s') (hq : (s.users q).pc = .iget k) : (s'.users q).pc = .iget k ∨
    ∃ t i, s'.var t = some i ∧ (s'.inode i).ino = k := by
  rcases eq_or_ne q p with rfl | hne
  swap
  · rw [h.users_of_ne hne]
    exact .inl hq
  cases h with
  | @hit k' t i hmay ht hpos hino =>
    refine .inr ⟨t, i, update_self _ _ _, ?_⟩
    rw [goto_inode, setVar_inode, setInode_inode, update_self]
    rcases hmay with ⟨hpc, -⟩ | hpc
    · cases hq.symm.trans hpc
    · cases hq.symm.trans hpc
      exact hino
  | @recycle k' t i hmay ht hmiss hfree =>
    refine .inr ⟨t, i, update_self _ _ _, ?_⟩
    rw [goto_inode, setVar_inode, setInode_inode, update_self]
    rcases hmay with ⟨hpc, -⟩ | hpc
    · cases hq.symm.trans hpc
    · cases hq.symm.trans hpc
      rfl
  | dup hpc | ilock hpc | lock hpc | found hpc | read hpc | modify hpc | update hpc | iunlock hpc
  | iput hpc | free hpc | trunc hpc | untype hpc | clear hpc | invalidate hpc | unlock hpc =>
    cases hq.symm.trans hpc
  | unref hput =>
    rw [hq] at hput
    cases hput
  | search hvar hget | alloc hvar hget => exact absurd hq (hget k)

/-- Only an entry that is free becomes one for another inode. -/
theorem ino (h : s.Does p s') (hpos : 0 < (s.inode i).ref) :
    (s'.inode i).ino = (s.inode i).ino := by
  cases h with
  | @recycle k' t i₁ hmay ht hmiss hfree =>
    have hne : i ≠ i₁ := by
      rintro rfl
      omega
    rw [goto_inode, setVar_inode, setInode_inode, update_of_ne hne]
  | ilock | found | update | iput | clear | search | alloc => rfl
  | hit | dup | lock | read | modify | iunlock | free | unref | trunc | untype | invalidate
  | unlock =>
    refine update_field Inode.ino ?_ i
    rfl

variable [Fintype T]

/-- Nobody works on an entry that is free. -/
theorem inode_of_free (h : s.Does p s') (hc : s.Counted) (hfree : (s.inode i).ref = 0)
    (hfree' : (s'.inode i).ref = 0) : s'.inode i = s.inode i := by
  have hne : ∀ {t : T} {i₁ : InodeIx} {x : Inode}, s.var t = some i₁ →
      Function.update s.inode i₁ x i = s.inode i := by
    intro t i₁ x ht
    apply update_of_ne
    rintro rfl
    exact absurd (hc.pos ht) (by omega)
  cases h with
  | @hit k t i₁ hmay ht hpos hino =>
    apply update_of_ne
    rintro rfl
    omega
  | @recycle k t i₁ hmay ht hmiss hfree₁ =>
    apply update_of_ne
    rintro rfl
    rw [goto_inode, setVar_inode, setInode_inode, update_self] at hfree'
    cases hfree'
  | ilock | found | update | iput | clear | search | alloc => rfl
  | dup hpc hvar => exact hne hvar
  | lock hpc hvar | read hpc hvar | free hpc hvar | trunc hpc hvar | untype hpc hvar
  | invalidate hpc hvar | unlock hpc hvar => exact hne hvar
  | modify hpc ht hvar | iunlock hpc ht hvar => exact hne hvar
  | unref hput hlock hvar => exact hne hvar

/-- An entry becomes free when its last reference is dropped. -/
theorem last (h : s.Does p s') (hc : s.Counted) (hpos : 0 < (s.inode i).ref)
    (hfree : (s'.inode i).ref = 0) : ∃ t, s.var t = some i ∧ s' = s.unref p t i ∧
      (s.inode i).ref = 1 ∧ (s.users p).pc.put? = some t ∧ (s.users p).pc.locked? = none ∧
        ((s.users p).pc = .iput t → (s.inode i).valid = true → (s.inode i).copy.nlink ≠ 0) := by
  have hcard := hc.count i
  rw [hcard, refs, Finset.card_pos] at hpos
  obtain ⟨t, ht⟩ := hpos
  replace ht := (Finset.mem_filter.mp ht).2
  have hc' := hc.step h
  rcases h.kept ht with ht' | ⟨rfl, hput, hlock, hlast⟩
  · exact absurd ht' (hc'.var_ne hfree t)
  · have href : (s.inode i).ref = 1 := by
      have hone := hc.pos ht
      rw [unref_inode, update_self] at hfree
      change (s.inode i).ref - 1 = 0 at hfree
      omega
    exact ⟨t, ht, rfl, href, hput, hlock, fun hpc => hlast hpc href⟩

end Does

/-! ### Runs in which every inode is freed -/

/-- A step of `p` that none of the exceptions is about. -/
structure Good (s : Itable T) (p : ProcIx) (s' : Itable T) : Prop where
  /-- when the process that has freed an inode drops the last reference, the number is not
  taken again, or the new inode has a link, or its process has yet to call `iget` -/
  drop : ∀ t i, (s.users p).pc = .drop t → s.var t = some i → (s'.inode i).ref = 0 →
    (s.dinode (s.inode i).ino).type = 0 ∨ (s.dinode (s.inode i).ino).nlink ≠ 0 ∨
      ∃ q, (s.users q).pc = .iget (s.inode i).ino
  /-- an inode without links was looked at before its last reference is dropped -/
  put : ∀ t i, (s.users p).pc = .iput t → s.var t = some i → (s'.inode i).ref = 0 →
    (s.inode i).valid = true ∨ (s.dinode (s.inode i).ino).nlink ≠ 0
  /-- no inode changes of which a free entry has a copy -/
  write : ∀ i, (s.inode i).ref = 0 → (s.inode i).valid = true →
    s'.dinode (s.inode i).ino = s.dinode (s.inode i).ino

/-- A good step. -/
def GoodStep (s : Itable T) (e : ProcIx × InodeAct T) (s' : Itable T) : Prop :=
  s.Step e s' ∧ s.Good e.1 s'

/-- What holds in runs of good steps. -/
structure Neat (s : Itable T) : Prop where
  /-- an inode without links is in use -/
  reached : ∀ k, (s.dinode k).type ≠ 0 → (s.dinode k).nlink = 0 →
    (∃ t i, s.var t = some i ∧ (s.inode i).ino = k) ∨ ∃ p, (s.users p).pc = .iget k
  free : ∀ i, (s.inode i).ref = 0 → (s.inode i).valid = true →
    (s.inode i).copy = s.dinode (s.inode i).ino

section Good

variable [Fintype T]

/-- The last reference to an inode without links is dropped only after it was freed. -/
theorem Good.last_step (hg : s.Good p (s.unref p t i)) (h : s.Inv)
    (hvar : s.var t = some i) (href : (s.inode i).ref = 1)
    (hput : (s.users p).pc.put? = some t) (hlock : (s.users p).pc.locked? = none)
    (hlast : (s.users p).pc = .iput t → (s.inode i).valid = true → (s.inode i).copy.nlink ≠ 0)
    (htype : (s.dinode (s.inode i).ino).type ≠ 0) (hnlink : (s.dinode (s.inode i).ino).nlink = 0) :
    ∃ q, (s.users q).pc = .iget (s.inode i).ino := by
  have hfree : ((s.unref p t i).inode i).ref = 0 := by
    rw [unref_inode, update_self]
    show (s.inode i).ref - 1 = 0
    rw [href]
  have hclean := h.not_dirty (h.unlocked hvar href hput hlock)
  rcases hpc : (s.users p).pc with _ | _ | _ | t' | _ | _ | _ | _ | _ | t' | _ | _ <;>
    rw [hpc] at hput hlock
  any_goals cases hput
  any_goals cases hlock
  · -- `iput` has looked at the inode
    rcases hg.put t i hpc hvar hfree with hvalid | hlinked
    · have hcopy := (h.contents.entry i).clean (h.counted.pos hvar) hvalid hclean
      rw [← hcopy] at hnlink
      exact absurd hnlink (hlast hpc hvalid)
    · exact absurd hnlink hlinked
  · -- the inode was freed, and is allocated again
    exact ((hg.drop t i hpc hvar hfree).resolve_left htype).resolve_left (not_not.mpr hnlink)

theorem Neat.reached_step (hn : s.Neat) (h : s.Inv) (h' : s'.Inv) (hstep : s.Does p s')
    (hg : s.Good p s') (htype : (s'.dinode k).type ≠ 0) (hnlink : (s'.dinode k).nlink = 0) :
    (∃ t i, s'.var t = some i ∧ (s'.inode i).ino = k) ∨ ∃ p, (s'.users p).pc = .iget k := by
  have higet : ∀ {q}, (s.users q).pc = .iget k →
      (∃ t i, s'.var t = some i ∧ (s'.inode i).ino = k) ∨ ∃ p, (s'.users p).pc = .iget k := by
    intro q hq
    rcases hstep.iget hq with hq' | ⟨t, i, ht, hi⟩
    · exact .inr ⟨q, hq'⟩
    · exact .inl ⟨t, i, ht, hi⟩
  rcases h.dinode_step hstep k with
    heq | ⟨-, -, -, hpc⟩ | ⟨t, i, ht, ht', hino, -, -⟩
  · rw [heq] at htype hnlink
    rcases hn.reached k htype hnlink with ⟨t, i, ht, hino⟩ | ⟨q, hq⟩
    · have hpos := h.counted.pos ht
      by_cases hfree : (s'.inode i).ref = 0
      · -- the last reference is gone
        subst hino
        obtain ⟨t₁, ht₁, rfl, href, hput, hlock, hlast⟩ := hstep.last h.counted hpos hfree
        obtain ⟨q, hq⟩ := hg.last_step h ht₁ href hput hlock hlast htype hnlink
        exact higet hq
      · have hcount := h'.counted.count i
        rw [hcount, refs, ← Ne.eq_def, Finset.card_ne_zero] at hfree
        obtain ⟨t', ht'⟩ := hfree
        refine .inl ⟨t', i, (Finset.mem_filter.mp ht').2, ?_⟩
        rw [hstep.ino hpos, hino]
    · exact higet hq
  · exact .inr ⟨p, hpc⟩
  · exact .inl ⟨t, i, ht', by rw [hstep.ino (h.counted.pos ht), hino]⟩

theorem Neat.free_step (hn : s.Neat) (h : s.Inv) (hstep : s.Does p s') (hg : s.Good p s')
    (hfree : (s'.inode i).ref = 0) (hvalid : (s'.inode i).valid = true) :
    (s'.inode i).copy = s'.dinode (s'.inode i).ino := by
  rcases Nat.eq_zero_or_pos (s.inode i).ref with href | hpos
  · rw [hstep.inode_of_free h.counted href hfree] at hvalid ⊢
    rw [hg.write i href hvalid]
    exact hn.free i href hvalid
  · obtain ⟨t, ht, rfl, href, hput, hlock, -⟩ := hstep.last h.counted hpos hfree
    rw [unref_inode, update_self] at hvalid ⊢
    exact (h.contents.entry i).clean hpos hvalid (h.not_dirty (h.unlocked ht href hput hlock))

theorem Neat.step (hn : s.Neat) (h : s.Inv) (hstep : s.Does p s') (hg : s.Good p s') : s'.Neat :=
  ⟨fun _ => hn.reached_step h (h.step hstep) hstep hg, fun _ => hn.free_step h hstep hg⟩

end Good

/-! ### The table is empty at first -/

section Initial

omit [DecidableEq T]

theorem Initial.neat (h : s.Initial) : s.Neat := by
  refine ⟨fun k htype hnlink => ?_, fun i _ hvalid => ?_⟩
  · have hpos := (h.dinode k).mp htype
    rw [hnlink] at hpos
    exact absurd hpos (by decide)
  · rw [(h.inode i).2.2] at hvalid
    cases hvalid

theorem Initial.entryOk (h : s.Initial) (i : InodeIx) : s.EntryOk i := by
  have hvar : ∀ {t}, s.var t ≠ some i := by
    intro t
    rw [h.var]
    nofun
  have hvalid : (s.inode i).valid ≠ true := by
    rw [(h.inode i).2.2]
    nofun
  refine ⟨fun t ht => absurd ht hvar, fun _ hv => absurd hv hvalid, fun hv => absurd hv hvalid,
    fun p t _ ht => absurd ht hvar, fun hd => ?_, fun p t ht => absurd ht hvar,
    fun p t ht => absurd ht hvar, fun p t t' _ ht => absurd ht hvar⟩
  rw [h.dirty] at hd
  cases hd

theorem Initial.inv [Fintype T] (h : s.Initial) : s.Inv := by
  have hlocked : ∀ p, (s.users p).locked = [] := by
    intro p
    rw [h.users]
    rfl
  refine ⟨⟨fun hi => ?_, fun i => ?_⟩, ⟨fun hp => ?_, fun hp => ?_⟩, ⟨fun {x p} => ?_, fun p => ?_⟩,
    h.entryOk, fun k hk => (h.dinode k).mpr hk, fun hp => ?_⟩
  · rw [(h.inode _).1] at hi
    cases hi
  · rw [(h.inode i).1, refs, eq_comm, Finset.card_eq_zero, Finset.filter_eq_empty_iff]
    intro t _
    rw [h.var]
    rintro ⟨⟩
  · rw [h.users] at hp
    cases hp
  · rw [h.users] at hp
    cases hp
  · rw [hlocked, List.map_nil]
    refine iff_of_false ?_ List.not_mem_nil
    cases x with
    | none => rintro ⟨⟩
    | some i =>
      show (s.inode i).lock ≠ some p
      rw [(h.inode i).2.1]
      rintro ⟨⟩
  · rw [hlocked]
    exact List.nodup_nil
  · rw [h.users] at hp
    cases hp

end Initial

/-! ### Every run -/

section Runs

variable [Fintype T] {s₀ : Itable T} {tr : List (ProcIx × InodeAct T)}

/-- What is promised of the table in every state. -/
structure InodesOk (s : Itable T) : Prop where
  /-- one entry for an inode -/
  unique : ∀ i j, 0 < (s.inode i).ref → 0 < (s.inode j).ref →
    (s.inode i).ino = (s.inode j).ino → i = j
  /-- `ref` is the number of references -/
  ref : ∀ i, (s.inode i).ref = s.refs i
  /-- an inode in use that is not locked is as in its block -/
  agrees : ∀ i, 0 < (s.inode i).ref → (s.inode i).lock = none → (s.inode i).valid = true →
    (s.inode i).copy = s.dinode (s.inode i).ino
  /-- an inode is truncated and freed with its last reference, when it has no links -/
  freeing : ∀ p t i, (s.users p).pc.freeing? = some t → s.var t = some i →
    (s.inode i).ref = 1 ∧ (s.dinode (s.inode i).ino).nlink = 0
  /-- and by nothing else than the `iupdate` of `iput` -/
  freed : ∀ e s' k, s.Step e s' → (s.dinode k).type ≠ 0 → (s'.dinode k).type = 0 →
    ∃ t i, (s.users e.1).pc = .iupdate t ∧ s.var t = some i ∧ (s.inode i).ino = k
  /-- `ilock` returns with the inode as it is in its block -/
  served : ∀ p t i, (s.users p).pc = .iread t → s.var t = some i →
    ∃ s', s.Step (p, .go) s' ∧ t ∈ (s'.users p).held ∧ (s'.inode i).valid = true ∧
      (s'.inode i).copy = s'.dinode (s.inode i).ino ∧ (s'.inode i).copy.type ≠ 0
  /-- `iput` does not have to wait for the lock -/
  unlocked : ∀ p t i, (s.users p).pc = .iput t → s.var t = some i → (s.inode i).ref = 1 →
    (s.inode i).lock = none

theorem Inv.served (h : s.Inv) (hpc : (s.users p).pc = .iread t) (hvar : s.var t = some i) :
    ∃ s', s.Step (p, .go) s' ∧ t ∈ (s'.users p).held ∧ (s'.inode i).valid = true ∧
      (s'.inode i).copy = s'.dinode (s.inode i).ino ∧ (s'.inode i).copy.type ≠ 0 := by
  have hstep : ∀ s', s.Step (p, .go) s' ↔ s.iread p t i = some s' := by
    intro s'
    simp only [Step, next, go, hpc, InodePc.var?, Option.bind_some, hvar, advance]
  have hheld : t ∈ ((s.ret p t).users p).held := by
    rw [ret_users, update_self]
    exact List.mem_cons_self
  have hd := h.not_dirty_of_iread hpc hvar
  by_cases hvalid : (s.inode i).valid = true
  · refine ⟨s.ret p t, ?_, hheld, hvalid, ?_, ?_⟩
    · rw [hstep, iread, if_pos hvalid]
    · exact (h.contents.entry i).clean (h.counted.pos hvar) hvalid hd
    · exact (h.contents.entry i).typed hvalid hd
  · have htype : (s.dinode (s.inode i).ino).type ≠ 0 := by
      refine (h.contents.entry i).alive t hvar (h.not_dying (p := p) ?_ ?_)
      · exact InodeUser.mem_uses.mpr (.inl (by rw [hpc]; rfl))
      · rw [hpc]
        rintro ⟨⟩
    refine ⟨(s.setInode i { s.inode i with valid := true, copy := s.dinode (s.inode i).ino }).ret p t,
      (hstep _).mpr ?_, hheld, ?_⟩
    · rw [iread, if_neg hvalid, if_neg htype]
    · rw [ret_inode, setInode_inode, update_self]
      exact ⟨rfl, rfl, htype⟩

omit [DecidableEq T] in
theorem Inv.agrees (h : s.Inv) (hpos : 0 < (s.inode i).ref) (hlock : (s.inode i).lock = none)
    (hvalid : (s.inode i).valid = true) : (s.inode i).copy = s.dinode (s.inode i).ino :=
  (h.contents.entry i).clean hpos hvalid (h.not_dirty hlock)

theorem Inv.inodesOk (h : s.Inv) : s.InodesOk := by
  refine ⟨fun i j => h.counted.unique, h.counted.count, fun i => h.agrees, fun p t i hpc hvar =>
    ⟨?_, h.nlink_of_freeing hpc hvar⟩, fun e s' k hstep htype htype' => ?_,
    fun p t i => h.served, fun p t i hpc hvar href => ?_⟩
  · rw [h.counted.count, refs, Finset.card_eq_one]
    refine ⟨t, ?_⟩
    ext t'
    rw [Finset.mem_filter, Finset.mem_singleton]
    refine ⟨fun ht' => (h.contents.entry i).sole p t t' hpc hvar ht'.2, ?_⟩
    rintro rfl
    exact ⟨Finset.mem_univ _, hvar⟩
  · rcases h.dinode_step hstep.does k with heq | ⟨-, hnew, -⟩ | ⟨t, i, ht, -, hino, -, hnew | hpc⟩
    · rw [heq] at htype'
      exact absurd htype' htype
    · exact absurd htype' hnew
    · exact absurd htype' hnew
    · exact ⟨t, i, hpc.1, ht, hino⟩
  · exact h.unlocked hvar href (by rw [hpc]; rfl) (by rw [hpc]; rfl)

/-- **The inode table** in every run, whatever the interleaving.  If the steps are good, an
entry that is not locked is as in the block of its inode also when it is free; and an
inode without links is freed, or still in use. -/
theorem inodes_ok (h₀ : s₀.Initial) :
    (Run Step s₀ tr s → s.InodesOk) ∧
    (Run GoodStep s₀ tr s →
      (∀ i, (s.inode i).lock = none → (s.inode i).valid = true →
        (s.inode i).copy = s.dinode (s.inode i).ino) ∧
      ∀ k, (s.dinode k).type ≠ 0 → (s.dinode k).nlink = 0 →
        (∃ t i, s.var t = some i ∧ (s.inode i).ino = k) ∨ ∃ p, (s.users p).pc = .iget k) := by
  constructor
  · exact fun hrun => (hrun.invariant h₀.inv fun h hstep => h.step hstep.does).inodesOk
  · intro hrun
    obtain ⟨h, hn⟩ : s.Inv ∧ s.Neat := by
      refine hrun.invariant (I := fun s => s.Inv ∧ s.Neat) ⟨h₀.inv, h₀.neat⟩ ?_
      rintro s ⟨p, a⟩ s' ⟨h, hn⟩ ⟨hstep, hg⟩
      exact ⟨h.step hstep.does, hn.step h hstep.does hg⟩
    refine ⟨fun i hlock hvalid => ?_, hn.reached⟩
    rcases Nat.eq_zero_or_pos (s.inode i).ref with href | hpos
    · exact hn.free i href hvalid
    · exact h.agrees hpos hlock hvalid

/-! ### Runs of two processes -/

set_option synthInstance.maxSize 1024 in
instance : Decidable (s.Good p s') :=
  decidable_of_iff (_ ∧ _ ∧ _) ⟨fun h => ⟨h.1, h.2.1, h.2.2⟩, fun h => ⟨h.drop, h.put, h.write⟩⟩

/-- The next state, if the step is a good one. -/
def goodNext (s : Itable T) (e : ProcIx × InodeAct T) : Option (Itable T) :=
  (s.next e).filter fun s' => s.Good e.1 s'

theorem goodStep_of_goodNext {e : ProcIx × InodeAct T} (h : s.goodNext e = some s') :
    s.GoodStep e s' := by
  obtain ⟨hnext, hgood⟩ := Option.filter_eq_some_iff.mp h
  exact ⟨hnext, of_decide_eq_true hgood⟩

end Runs

/-- The root directory and one file, which are inodes 1 and 2. -/
def demo : Itable (Fin 2) where
  inode _ := ⟨(0, 0), 0, none, false, .zero⟩
  dinode k := if k = (1, 1) then { Dinode.zero with type := 1, nlink := 1 }
    else if k = (1, 2) then { Dinode.zero with type := 2, nlink := 1 } else .zero
  var _ := none
  users _ := ⟨.out, []⟩
  dirty _ := false

theorem demo_initial : demo.Initial := by
  refine ⟨fun _ => ⟨rfl, rfl, rfl⟩, fun k => ?_, fun _ => rfl, fun _ => rfl, fun _ => rfl⟩
  unfold demo
  dsimp only
  split_ifs <;> decide

/-- A file is unlinked and freed, and its number taken again afterwards. -/
def unlinkThenCreate : List (ProcIx × InodeAct (Fin 2)) :=
  [(0, .iget (1, 2) 0), (0, .ilock 0), (0, .go), (0, .go),
    (0, .modify 0 .zero), (0, .iupdate 0), (0, .iunlock 0),
    (0, .iput 0), (0, .go), (0, .go), (0, .go), (0, .go), (0, .go), (0, .go), (0, .go),
    (1, .ialloc 1 ⟨2, by decide⟩), (1, .go), (1, .go), (1, .iallocGet 1), (1, .ilock 1), (1, .go)]

theorem inodes_ok_unlinkThenCreate : ∃ s, Run GoodStep demo unlinkThenCreate s ∧ s.InodesOk ∧
    (s.users 1).pc = .iread 1 ∧ (s.dinode (1, 2)).type ≠ 0 ∧ (s.dinode (1, 2)).nlink = 0 ∧
    ((∃ t i, s.var t = some i ∧ (s.inode i).ino = (1, 2)) ∨ ∃ p, (s.users p).pc = .iget (1, 2)) := by
  obtain ⟨s, hs, hpc, htype, hnlink⟩ := exists_of_decide (o := unlinkThenCreate.foldlM goodNext demo)
    (P := fun s => (s.users 1).pc = .iread 1 ∧ (s.dinode (1, 2)).type ≠ 0 ∧
      (s.dinode (1, 2)).nlink = 0) (by decide +kernel)
  have hrun := Run.of_foldlM goodStep_of_goodNext _ hs
  exact ⟨s, hrun, (inodes_ok demo_initial).1 (hrun.mono And.left), hpc, htype, hnlink,
    ((inodes_ok demo_initial).2 hrun).2 (1, 2) htype hnlink⟩

/-- The number is taken while the entry is dying: the last reference is dropped by the
process that freed the old inode, and nobody frees the new one. -/
def createWhileDying : List (ProcIx × InodeAct (Fin 2)) :=
  [(0, .iget (1, 2) 0), (0, .ilock 0), (0, .go), (0, .go),
    (0, .modify 0 .zero), (0, .iupdate 0), (0, .iunlock 0),
    (0, .iput 0), (0, .go), (0, .go), (0, .go), (0, .go), (0, .go), (0, .go),
    (1, .ialloc 1 ⟨2, by decide⟩), (1, .go), (1, .go), (1, .iallocGet 1), (1, .ilock 1), (1, .go),
    (1, .go), (1, .iunlock 1), (1, .iput 1), (1, .go), (0, .go)]

/-- The root directory is looked at through entry 1, which stays valid when it is free;
then it is changed through entry 0. -/
def changeWhileFree : List (ProcIx × InodeAct (Fin 2)) :=
  [(0, .iget (1, 2) 0), (0, .iget (1, 1) 1), (0, .ilock 1), (0, .go), (0, .go), (0, .iunlock 1),
    (0, .iput 1), (0, .go), (0, .iput 0), (0, .go), (0, .iget (1, 1) 0), (0, .ilock 0), (0, .go),
    (0, .go), (0, .modify 0 { Dinode.zero with nlink := 2 }), (0, .iupdate 0)]

/-- An inode without links that nobody has a reference to is never freed; and an entry
that is valid and not locked differs from the inode's block. -/
theorem iput_leaks_and_keeps_valid : demo.Initial ∧
    (∃ s, Run Step demo createWhileDying s ∧ (s.dinode (1, 2)).type = 2 ∧
      (s.dinode (1, 2)).nlink = 0 ∧ (∀ t, s.var t = none) ∧ ∀ p, (s.users p).pc = .out) ∧
    ∃ s, Run Step demo changeWhileFree s ∧ (s.inode 1).lock = none ∧
      (s.inode 1).valid = true ∧ (s.inode 1).ino = (1, 1) ∧
      (s.inode 1).copy ≠ s.dinode (1, 1) := by
  refine ⟨demo_initial, ?_, ?_⟩
  · obtain ⟨s, hs, hleak⟩ := exists_of_decide (o := createWhileDying.foldlM next demo)
      (P := fun s => (s.dinode (1, 2)).type = 2 ∧ (s.dinode (1, 2)).nlink = 0 ∧
        (∀ t, s.var t = none) ∧ ∀ p, (s.users p).pc = .out) (by decide +kernel)
    exact ⟨s, Run.of_foldlM (fun h => h) _ hs, hleak⟩
  · obtain ⟨s, hs, hstale⟩ := exists_of_decide (o := changeWhileFree.foldlM next demo)
      (P := fun s => (s.inode 1).lock = none ∧ (s.inode 1).valid = true ∧
        (s.inode 1).ino = (1, 1) ∧ (s.inode 1).copy ≠ s.dinode (1, 1)) (by decide +kernel)
    exact ⟨s, Run.of_foldlM (fun h => h) _ hs, hstale⟩

end Itable

end Xv6Zig
