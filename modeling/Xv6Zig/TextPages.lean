/-
Xv6Zig/TextPages.lean

Pages without `PTE_W`.

`exec` maps the segments of a program with the permissions the program header
asks for, so a process can have pages that it can read and not write.  Nothing
else maps such a page: `sbrk` and the opens of ring buffers map with `PTE_W`, and
`fork` copies what is there.

A page without `PTE_W` is in the memory of its process only once.  This holds
also where a failed open has left mappings behind that belong to nobody
(`Stray`): what they map were pages of a ring buffer when the process had its
text already.
-/
import Xv6Zig.Regions

namespace Xv6Zig

open Lib

namespace Kernel

variable {k k' k₀ : Kernel} {p j : ProcIx} {e : Ev} {v v' : ℕ} {pte pte' : Pte}

/-! ### What is mapped -/

/-- Where a mapping of a process can come from. -/
inductive LeafFrom (k : Kernel) (p : ProcIx) (v : ℕ) (pte : Pte) : Prop
  | kernel (notUser : pte.perm.u = false)
  | own (lt : v < npages (k.procs p).sz)
  | ring (r : RingIx) (mem : pte.pa ∈ (k.ringbufs r).pages) (perm : pte.perm = ringPerm)
  | stray (stray : k.Stray p v)

theorem Inv.leafFrom (h : Inv k) (hleaf : leafAt (k.procs p).pagetable v = some pte) :
    LeafFrom k p v pte := by
  obtain ⟨tf, -, hspace⟩ := (h.proc p).space (isNull_of_leafAt hleaf)
  by_cases h₁ : v = trampolineVpn
  · rw [h₁, hspace.trampoline] at hleaf
    cases hleaf
    exact .kernel rfl
  by_cases h₂ : v = trapframeVpn
  · rw [h₂, hspace.trapframe] at hleaf
    cases hleaf
    exact .kernel rfl
  by_cases h₃ : v < npages (k.procs p).sz
  · exact .own h₃
  by_cases hring : ∃ r i b, ((k.ringbufs r).owners i).proc = some p ∧
      ((k.ringbufs r).owners i).vbook = some (b * pgSize) ∧ b ≤ v ∧ v < b + 33
  · obtain ⟨r, i, b, hi, hb, hv⟩ := hring
    obtain ⟨-, b', hatt⟩ := h.owner r i p hi
    rw [hatt.vbook] at hb
    obtain rfl := Nat.eq_of_mul_eq_mul_right pgSize_pos (Option.some.inj hb)
    obtain ⟨f, book, hholds⟩ := (h.ring r).active ((h.ring r).active_of_owner hi)
    obtain ⟨pa, hpa, hslot⟩ := hholds.slot_isSome (show v - b' ≤ 32 by omega)
    have hmap := hatt.leaf (v - b') (by omega)
    rw [show b' + (v - b') = v by omega, hslot, hleaf] at hmap
    cases hmap
    exact .ring r hpa rfl
  · refine .stray ⟨by rw [hleaf]; exact Option.some_ne_none pte, h₁, h₂, not_lt.mp h₃, ?_⟩
    exact fun r i b hi hb hv => hring ⟨r, i, b, hi, hb, hv⟩

/-- The page is one of the user that the user cannot write. -/
structure ReadOnly (k : Kernel) (p : ProcIx) (v : ℕ) (pte : Pte) : Prop where
  leaf : leafAt (k.procs p).pagetable v = some pte
  user : pte.perm.u = true
  fixed : pte.perm.w = false

/-- **Stray mappings can be written and are not of a page that cannot.** -/
def StrayOk (k : Kernel) (p : ProcIx) : Prop :=
  ∀ v pte, k.Stray p v → leafAt (k.procs p).pagetable v = some pte →
    pte.perm.w = true ∧ pte.pa % pgSize = 0 ∧ ∀ u pteu, ReadOnly k p u pteu → pteu.pa ≠ pte.pa

theorem StrayOk.of_noStray (h : ∀ v, ¬ k.Stray p v) : StrayOk k p :=
  fun v _ hstray => absurd hstray (h v)

/-- A page that cannot be written is one of the process's own. -/
theorem ReadOnly.lt (h : Inv k) (hok : StrayOk k p) (hro : ReadOnly k p v pte) :
    v < npages (k.procs p).sz := by
  have hfixed := hro.fixed
  cases h.leafFrom hro.leaf with
  | kernel notUser =>
    rw [hro.user] at notUser
    cases notUser
  | own lt => exact lt
  | ring r mem perm =>
    rw [perm] at hfixed
    cases hfixed
  | stray stray =>
    rw [(hok v pte stray hro.leaf).1] at hfixed
    cases hfixed

/-- A page of the user starts where a page starts. -/
theorem Inv.aligned_leaf (h : Inv k) (hok : StrayOk k p)
    (hleaf : leafAt (k.procs p).pagetable v = some pte) (huser : pte.perm.u = true) :
    pte.pa % pgSize = 0 := by
  cases h.leafFrom hleaf with
  | kernel notUser =>
    rw [huser] at notUser
    cases notUser
  | own lt => exact (h.valid_proc (Proc.mem_pages_user lt hleaf)).1
  | ring r mem => exact (h.valid_ring mem).1
  | stray stray => exact (hok v pte stray hleaf).2.1

/-- **A page that cannot be written is mapped once.** -/
theorem ReadOnly.unique (h : Inv k) (hok : StrayOk k p) (hro : ReadOnly k p v pte)
    (hleaf : leafAt (k.procs p).pagetable v' = some pte') (huser : pte'.perm.u = true)
    (hpa : pte'.pa = pte.pa) : v' = v := by
  have hlt := hro.lt h hok
  have hmem := Proc.mem_pages_user hlt hro.leaf
  cases h.leafFrom hleaf with
  | kernel notUser =>
    rw [huser] at notUser
    cases notUser
  | own lt =>
    -- both are among the process's own pages, which are distinct
    have hpurpose := @Inv.purpose_unique k h pte.pa (.user p v) (.user p v')
      ⟨hlt, by rw [hro.leaf]; rfl⟩ ⟨lt, by rw [hleaf, Option.map_some, hpa]⟩
    cases hpurpose
    rfl
  | ring r mem =>
    exact absurd (hpa ▸ mem) (h.proc_page_not_ring hmem)
  | stray stray => exact absurd hpa.symm ((hok v' pte' stray hleaf).2.2 v pte hro)

/-! ### Every step -/

/-- Only pages that can be written are new, and nothing is left behind. -/
theorem StrayOk.of_extended (h : StrayOk k p) (htidy : ∀ v, k'.Stray p v → k.Stray p v)
    (hext : Extended (k.procs p).pagetable (k'.procs p).pagetable) : StrayOk k' p := by
  intro v pte hstray hleaf
  have hold := htidy v hstray
  have hleaf₀ : leafAt (k.procs p).pagetable v = some pte :=
    (hext v pte hleaf).resolve_right fun hnew => hold.1 hnew.1
  obtain ⟨hw, haligned, hother⟩ := h v pte hold hleaf₀
  refine ⟨hw, haligned, fun u pteu hro => ?_⟩
  refine hother u pteu ⟨?_, hro.user, hro.fixed⟩
  refine (hext u pteu hro.leaf).resolve_right fun hnew => ?_
  rw [hro.fixed] at hnew
  cases hnew.2

/-- The calls other than those on ring buffers. -/
theorem StrayOk.of_kept (h : StrayOk k p) (hk : Kept k k')
    (hext : (∀ v, ¬ k'.Stray p v) ∨ Extended (k.procs p).pagetable (k'.procs p).pagetable) :
    StrayOk k' p := by
  rcases hext with hno | hext
  · exact .of_noStray hno
  · exact h.of_extended (hk.tidy p) hext

theorem extended_of_eq (h : (k'.procs p).pagetable = (k.procs p).pagetable) :
    Extended (k.procs p).pagetable (k'.procs p).pagetable :=
  .of_eq (congrArg leafAt h)

theorem MappedDown.extended {l : List ℕ} {m m' : Kmem} {pt pt' : PageTable} {w : ℕ}
    (h : MappedDown l m pt w m' pt') : Extended pt pt' := by
  intro v pte hleaf
  by_cases hin : v ≤ w ∧ w < v + l.length
  · have hfresh := h.fresh (w - v) (by omega)
    have hnew := h.leaf (w - v) (by omega)
    rw [show w - (w - v) = v by omega] at hfresh hnew
    rw [hnew] at hleaf
    obtain ⟨pa, -, rfl⟩ := Option.map_eq_some_iff.mp hleaf
    exact .inr ⟨hfresh, rfl⟩
  · rw [h.rest v (by omega)] at hleaf
    exact .inl hleaf

/-- The same with a mapping that stopped half-way. -/
theorem MapEnded.extended {l : List ℕ} {m m' : Kmem} {pt pt' : PageTable} {top top' : ℕ} {ok : Bool}
    (h : MapEnded l m pt top m' pt' top' ok) : Extended pt pt' := by
  cases ok with
  | true => exact h.1.extended
  | false =>
    obtain ⟨n, m₁, pt₁, -, hdown, -, hfailed⟩ := h
    intro v pte hleaf
    rw [hfailed.leaf] at hleaf
    exact hdown.extended v pte hleaf

theorem MappedDown.mem_of_new {l : List ℕ} {m m' : Kmem} {pt pt' : PageTable} {w : ℕ}
    (h : MappedDown l m pt w m' pt') (hleaf : leafAt pt' v = some pte) (hnew : leafAt pt v = none) :
    pte.pa ∈ l := by
  by_cases hin : v ≤ w ∧ w < v + l.length
  · have hmap := h.leaf (w - v) (by omega)
    rw [show w - (w - v) = v by omega, hleaf] at hmap
    obtain ⟨pa, hpa, heq⟩ := Option.map_eq_some_iff.mp hmap.symm
    rw [← heq]
    exact List.mem_of_getElem? hpa
  · rw [h.rest v (by omega), hnew] at hleaf
    cases hleaf

theorem MapEnded.mem_of_new {l : List ℕ} {m m' : Kmem} {pt pt' : PageTable} {top top' : ℕ}
    {ok : Bool} (h : MapEnded l m pt top m' pt' top' ok) (hleaf : leafAt pt' v = some pte)
    (hnew : leafAt pt v = none) : pte.pa ∈ l := by
  cases ok with
  | true => exact h.1.mem_of_new hleaf hnew
  | false =>
    obtain ⟨n, m₁, pt₁, -, hdown, -, hfailed⟩ := h
    rw [hfailed.leaf] at hleaf
    exact List.mem_of_mem_take (hdown.mem_of_new hleaf hnew)

section Open

variable {k₁ : Kernel} {r : RingIx} {f : Fin 16 → ℕ} {book : ℕ} {name : List UInt8} {addr : ℕ}
  {m : Kmem} {pt : PageTable} {top : ℕ} {ok : Bool}

/-- An open that fails leaves pages of the ring buffer behind. -/
theorem StrayOk.of_undone (h : Inv k) (hok : StrayOk k p) (hready : Ready k k₁ r f book)
    (hundone : Undone k p name addr k₁ r f book m pt top ok) : StrayOk (k₁.undone p r m pt top) p := by
  have hend := hundone.ended h
  have hext : Extended (k.procs p).pagetable ((k₁.undone p r m pt top).procs p).pagetable := by
    rw [undone_procs_self]
    exact hend.extended
  have hro : ∀ u pteu, ReadOnly (k₁.undone p r m pt top) p u pteu → ReadOnly k p u pteu := by
    intro u pteu hro
    refine ⟨?_, hro.user, hro.fixed⟩
    refine (hext u pteu hro.leaf).resolve_right fun hnew => ?_
    rw [hro.fixed] at hnew
    cases hnew.2
  intro v pte hstray hleaf
  have hleaf' : leafAt pt v = some pte := by
    rw [undone_procs_self] at hleaf
    exact hleaf
  rcases hext v pte hleaf with hold | ⟨hnone, hw⟩
  · -- it was there before
    have hstray₀ : k.Stray p v := by
      refine hstray.of_kept (by simp [hold]) (by rw [undone_procs_self, hready.procs])
        fun s c b hc _ _ => owners_undone hready h hundone.idle hc
    obtain ⟨hw, haligned, hother⟩ := hok v pte hstray₀ hold
    exact ⟨hw, haligned, fun u pteu hu => hother u pteu (hro u pteu hu)⟩
  · -- it is a page of the ring buffer
    have hmem : pte.pa ∈ (k₁.ringbufs r).pages := by
      rw [hready.holds.pages_eq, ← Ringbuf.mem_order]
      exact hend.mem_of_new hleaf' hnone
    refine ⟨hw, (hready.valid h pte.pa hmem).1, fun u pteu hu heq => ?_⟩
    have hmem' := Proc.mem_pages_user ((hro u pteu hu).lt h hok) (hro u pteu hu).leaf
    rw [heq, ← hready.procs, ← Multiset.mem_coe, ← held_proc] at hmem'
    rw [← Multiset.mem_coe, ← held_ring] at hmem
    have hnodup := h.nodup
    rw [← hready.pages] at hnodup
    unfold pages at hnodup
    cases holder_unique hnodup hmem hmem'

variable {res : Except RingbufError Unit}

theorem StrayOk.open (h : Inv k) (hok : StrayOk k p)
    (hname : ¬ (name.length > maxNameLen ∨ name.length = 0)) (hzero : 0 ∉ name)
    (hrun : k.Running p) (hopen : k.openRingbuf p name addr = .ok (k', res)) : StrayOk k' p := by
  have hproc := h.proc p
  rcases open_cases h hname hzero hopen with ⟨-, -, hun, htidy, hprocs, -⟩ | ⟨-, k₁, r, i, f, book,
    m, pt, hready, hempty, hnot, -, ⟨hmap, -, -, rfl⟩ | ⟨top, ok, hundone, -, rfl⟩⟩
  · exact hok.of_extended (htidy p) (extended_of_eq (by rw [hprocs]))
  · have hend := of_mapDown hproc.aligned hproc.word hmap
    refine hok.of_extended (tidy_opened hready h hempty hnot hend.1 hrun p) ?_
    rw [opened_procs_self]
    exact hend.extended
  · exact hok.of_undone h hready hundone

end Open

theorem StrayOk.close {r : RingIx} {b top : ℕ} (hok : StrayOk k p) (htidy : Tidy k k')
    (hclosed : Closed k p k' r b top) : StrayOk k' p := by
  obtain ⟨k₁, hdis, rfl⟩ := hclosed.disowned
  refine hok.of_extended (htidy p) fun v pte hleaf => .inl (hdis.leaf v pte ?_)
  rw [setProc_procs, Function.update_self] at hleaf
  exact hleaf

theorem StrayOk.sysRingbuf {str : Option CStr} {op : Int32} {addr vaddr : ℕ} {n : ℤ} (h : Inv k)
    (hok : StrayOk k p) (hrun : k.Running p)
    (hcall : k.sysRingbuf p str op addr vaddr = .ok (k', n)) : StrayOk k' p := by
  obtain ⟨res, -, hcalled⟩ := of_sysRingbuf hcall
  cases hcalled with
  | failed => exact hok
  | closed _ _ hclose =>
    obtain ⟨-, htidy, ⟨rfl, -⟩ | ⟨-, r, b, -, -, hclosed⟩⟩ := of_closeRingbuf h hclose
    · exact hok
    · exact hok.close htidy hclosed
  | opened _ hlen hzero hopen => exact hok.open h hlen hzero hrun hopen

/-- What another process does to its ring buffers does not matter. -/
theorem StrayOk.of_same (hok : StrayOk k p) (hsame : SameFor k p k') : StrayOk k' p := by
  refine hok.of_extended ?_ (extended_of_eq (by rw [hsame.proc]))
  rintro v ⟨hleaf, h₁, h₂, h₃, hrest⟩
  rw [hsame.proc] at hleaf h₃
  refine ⟨hleaf, h₁, h₂, h₃, fun s c b hc hb => ?_⟩
  have hold := hsame.owners s c (.inl hc)
  exact hrest s c b (hold ▸ hc) (hold ▸ hb)

theorem strayOk_step (h : Inv k) (hok : ∀ p, StrayOk k p) (hstep : Steps k e k') (p : ProcIx) :
    StrayOk k' p := by
  obtain ⟨hruns, hcall⟩ := hstep
  cases e with
  | ringbuf j str op addr vaddr =>
    obtain ⟨⟨k₁, n⟩, hsys, hret⟩ := bind_eq_ok.mp hcall
    cases hret
    by_cases hj : p = j
    · subst hj
      exact (hok p).sysRingbuf h hruns hsys
    · exact (hok p).of_same (sysRingbuf_same h hj hsys)
  | sbrk j n =>
    obtain ⟨⟨k₁, ok⟩, hgrow, hret⟩ := bind_eq_ok.mp hcall
    cases hret
    obtain ⟨hkept, hresized⟩ := (growproc_ends h hruns n).of_ok hgrow
    by_cases hj : p = j
    · subst hj
      exact (hok p).of_kept hkept (.inr hresized.leaf)
    · exact (hok p).of_kept hkept (.inr (extended_of_eq (by rw [hresized.procs p hj])))
  | fork j =>
    obtain ⟨⟨k₁, o⟩, hfork, hret⟩ := bind_eq_ok.mp hcall
    cases hret
    obtain ⟨hkept, hforked⟩ := (fork_ends h hruns).of_ok hfork
    cases o with
    | none => exact (hok p).of_kept hkept (.inr (extended_of_eq (by rw [hforked])))
    | some np =>
      obtain ⟨hunused, hprocs, -⟩ := hforked
      by_cases hnp : p = np
      · -- the child's slot was empty
        subst hnp
        refine (hok p).of_kept hkept (.inl fun v hstray => ?_)
        have hold := (hkept.tidy p v hstray).1
        rw [(h.proc p).unused hunused] at hold
        exact hold (leafAt_absent v)
      · exact (hok p).of_kept hkept (.inr (extended_of_eq (by rw [hprocs p hnp])))
  | exit j =>
    obtain ⟨hkept, -, hmarks⟩ := (exit_ends h hruns).of_ok hcall
    exact (hok p).of_kept hkept (.inr (extended_of_eq (by rw [hmarks p])))
  | wait j addr =>
    obtain ⟨⟨k₁, o⟩, hwait, hret⟩ := bind_eq_ok.mp hcall
    obtain rfl := Except.ok.inj hret
    obtain ⟨hkept, hreaped⟩ := (wait_ends h j addr).of_ok hwait
    cases o with
    | none =>
      obtain rfl : k₁ = k := hreaped
      exact hok p
    | some c =>
      obtain ⟨-, -, hfreed⟩ := hreaped
      by_cases hc : p = c
      · subst hc
        refine (hok p).of_kept hkept (.inl fun v hstray => hstray.1 ?_)
        rw [hfreed.self]
        exact leafAt_absent v
      · exact (hok p).of_kept hkept (.inr (extended_of_eq (by rw [hfreed.procs p hc])))
  | exec j path image args =>
    obtain ⟨⟨k₁, argc⟩, hexec, hret⟩ := bind_eq_ok.mp hcall
    cases hret
    obtain ⟨hkept, hreplaced, -⟩ := (sysExec_ends h hruns.1 path args).of_ok hexec
    cases argc with
    | none => exact (hok p).of_kept hkept (.inr (extended_of_eq (by rw [hreplaced])))
    | some argc =>
      obtain ⟨hprocs, -, hno⟩ := hreplaced
      by_cases hj : p = j
      · subst hj
        exact (hok p).of_kept hkept (.inl hno)
      · exact (hok p).of_kept hkept (.inr (extended_of_eq (by rw [hprocs p hj])))
  | pipe j =>
    have hkept := pipealloc_kept h
    cases hcall
    exact (hok p).of_extended (hkept.tidy p) (extended_of_eq (by rw [hkept.procs]))
  | pipeclose j pa =>
    obtain ⟨k₁, hr, hkept, -⟩ := pipeclose_spec h hruns.2
    cases hr.symm.trans hcall
    exact (hok p).of_extended (hkept.tidy p) (extended_of_eq (by rw [hkept.procs]))

/-- **Whatever the system calls were, stray mappings show no text.** -/
theorem Reachable.strayOk (h : Reachable k) (p : ProcIx) : StrayOk k p := by
  obtain ⟨k₀, tr, h₀, hrun⟩ := h
  have hboth : Inv k ∧ ∀ p, StrayOk k p := by
    refine hrun.invariant (I := fun k => Inv k ∧ ∀ p, StrayOk k p) ?_ ?_
    · obtain ⟨hinv, hno⟩ := h₀.inv
      exact ⟨hinv, fun p => .of_noStray (hno p)⟩
    · rintro k e k' ⟨hinv, hok⟩ hstep
      exact ⟨inv_step hinv hstep, strayOk_step hinv hok hstep⟩
  exact hboth.2 p

end Kernel

end Xv6Zig
