/-
Xv6Zig/KernelRuns.lean

Runs of the memory system.

The invariant holds in every state a run comes to, whatever the calls, as long
as the kernel has not stopped.  What fails is kept apart: opens that are undone
after they mapped something (`OpenOk`), and `exec` by an owner of a ring
buffer (`ExecOk`).  Without them no page is visible to a process that is not
its own or its ring buffer's, and every address space is torn down in order.
-/
import Xv6Zig.ExecInv

namespace Xv6Zig

open Lib

namespace Kernel

variable {k k' k₀ : Kernel} {p : ProcIx} {r : RingIx} {tr : List Ev} {e : Ev}

/-! ### The first process -/

theorem pages_boot (kend trampoline : ℕ) (free : List ℕ) :
    (boot kend trampoline free).pages = free := by
  unfold pages
  rw [sum_eq_add_erase _ Holder.free, held_free, Finset.sum_eq_zero, add_zero]
  · rfl
  · intro x hx
    cases x with
    | free => exact absurd rfl (Finset.ne_of_mem_erase hx)
    | pipes =>
      rw [held_pipes]
      rfl
    | proc j =>
      rw [held_proc, show (boot kend trampoline free).procs j = Proc.empty from rfl,
        Proc.pages_empty]
      rfl
    | ring s =>
      rw [held_ring, show (boot kend trampoline free).ringbufs s = Ringbuf.empty from rfl,
        Ringbuf.pages_empty]
      rfl

theorem inv_boot {kend trampoline : ℕ} {free : List ℕ} (htr : trampoline < kend)
    (hnodup : free.Nodup) (hvalid : ∀ pa ∈ free, ValidPage kend pa) :
    Inv (boot kend trampoline free) := by
  refine ⟨?_, ?_, htr, fun _ => ProcOk.empty _, fun _ => RingOk.empty, ?_, ?_, ?_, ?_⟩
  · rw [pages_boot]
    exact hnodup
  · rw [pages_boot]
    exact hvalid
  · exact fun r s h => absurd rfl h
  · exact fun r i p h => nomatch h
  · intro p
    rw [ringsOf_eq_empty]
    · exact Nat.zero_le _
    · rintro r ⟨i, hi⟩
      cases hi
  · exact fun t ht => absurd ht List.not_mem_nil

/-- Nothing is mapped but what belongs there. -/
def NoStray (k : Kernel) : Prop :=
  ∀ p v, ¬ k.Stray p v

theorem NoStray.of_tidy (h : NoStray k) (htidy : Tidy k k') : NoStray k' :=
  fun p v hs => h p v (htidy p v hs)

theorem userinit_kept (h : Inv k) (hu : k.userinit = .ok (some k₀)) : Kept k k₀ := by
  unfold userinit at hu
  rcases allocproc_spec h with ⟨k', hr, -⟩ | ⟨p, tf, F, m, pt, hr, hp, hF, himage⟩
  · rw [hr] at hu
    cases hu
  have hself : (k.newproc p tf m pt).procs p
      = { Proc.empty with state := .used, trapframe := some tf, pagetable := pt } :=
    Function.update_self _ _ _
  rw [hr, ok_bind] at hu
  simp only [hself, newproc_setProc] at hu
  rcases halloc : (k.newproc p tf m pt).mem.allocPage with - | ⟨mem, m₁⟩
  · rw [halloc] at hu
    cases hu
  simp only [halloc, mappages_page m₁ pt (Nat.zero_mod pgSize)] at hu
  obtain ⟨⟨m₂, pt₂, ok⟩, hmap, hu⟩ := bind_eq_ok.mp hu
  cases ok with
  | false => cases hu
  | true =>
    cases Except.ok.inj hu
    have hone := OnePage.of_mapped halloc (of_mapPage_true hmap)
    have hall : Allocated (fun _ _ => True) m pt (npages 0) (npages pgSize - npages 0) m₂ pt₂ :=
      (Allocated.zero _ m₂ pt₂ 1).succ hone trivial
    have htop : Proc.empty.topFreeUvmPg = (k.procs p).topFreeUvmPg := by
      rw [(h.proc p).unused hp]
    have hempty : (k.mem.free : Multiset ℕ) + (k.procs p).pages = k.mem.free := by
      rw [(h.proc p).unused hp, Proc.pages_empty, Multiset.coe_nil, add_zero]
    exact h.of_image (p := p) (h.not_owns_of_unused hp) (q := { Proc.empty with
      state := .live, trapframe := some tf, pagetable := pt₂, sz := pgSize })
      (himage.allocated (Nat.zero_le _) hall) rfl (fun h => nomatch h) htop
      (hF.trans hempty.symm) fun _ => h.teardown

theorem noStray_boot (kend trampoline : ℕ) (free : List ℕ) :
    NoStray (boot kend trampoline free) := by
  rintro p v ⟨hleaf, -⟩
  exact hleaf (leafAt_absent v)

theorem Initial.inv (h : Initial k₀) : Inv k₀ ∧ NoStray k₀ := by
  obtain ⟨kend, trampoline, free, htr, hnodup, hvalid, hu⟩ := h.started
  have hkept := userinit_kept (inv_boot htr hnodup hvalid) hu
  exact ⟨hkept.inv, (noStray_boot kend trampoline free).of_tidy hkept.tidy⟩

/-! ### Steps and runs -/

theorem inv_step (h : Inv k) (hstep : Steps k e k') : Inv k' :=
  ((syscall_ends h hstep.1).of_ok hstep.2).1

/-- **The invariant holds in every state that is reached.** -/
theorem Reachable.inv (h : Reachable k) : Inv k := by
  obtain ⟨k₀, tr, h₀, hrun⟩ := h
  exact hrun.invariant h₀.inv.1 fun hinv hstep => inv_step hinv hstep

/-- Steps that leave nothing half-done. -/
def CleanSteps (k : Kernel) (e : Ev) (k' : Kernel) : Prop :=
  Steps k e k' ∧ k.OpenOk e

theorem inv_of_cleanRun (h₀ : Initial k₀) (hrun : Run CleanSteps k₀ tr k) : Inv k ∧ NoStray k := by
  refine hrun.invariant (I := fun k => Inv k ∧ NoStray k) h₀.inv ?_
  rintro k e k' ⟨hinv, hno⟩ ⟨hstep, hopen⟩
  obtain ⟨hinv', htidy, -⟩ := (syscall_ends hinv hstep.1).of_ok hstep.2
  exact ⟨hinv', hno.of_tidy (htidy hopen)⟩

/-- An open that is not clean shows. -/
theorem not_openOk (h : Inv k) (hstep : Steps k e k') (hnot : ¬ k.OpenOk e) :
    ∃ p v pa, leafAt (k'.procs p).pagetable v = some ⟨pa, ringPerm⟩ ∧ pa ∈ k'.mem.free := by
  obtain ⟨-, hcall⟩ := hstep
  cases e with
  | ringbuf p str op addr vaddr =>
    obtain ⟨⟨k₁, n⟩, hsys, hret⟩ := bind_eq_ok.mp hcall
    cases hret
    obtain ⟨-, v, pa, hleaf, hfree⟩ := not_cleanCall h hsys hnot
    exact ⟨p, v, pa, hleaf, hfree⟩
  | _ => exact absurd trivial hnot

/-! ### A machine with forty pages -/

/-- Forty pages for the kernel to hand out. -/
def demoFree : List ℕ :=
  (List.range 40).map fun i => 0x80200000 + i * pgSize

/-- The kernel of that machine as its first process starts. -/
def demo : Option Kernel :=
  (boot 0x80100000 0x80008000 demoFree).userinit.toOption.join

theorem demo_userinit {k : Kernel} (h : demo = some k) :
    (boot 0x80100000 0x80008000 demoFree).userinit = .ok (some k) := by
  unfold demo at h
  rcases hu : (boot 0x80100000 0x80008000 demoFree).userinit with x | o
  · rw [hu] at h
    cases h
  · rw [hu] at h
    exact congrArg Except.ok h

theorem demo_initial {k : Kernel} (h : demo = some k) : Initial k :=
  ⟨0x80100000, 0x80008000, demoFree, by decide, by decide, by decide, demo_userinit h⟩

/-- A run from there, of which something was evaluated. -/
theorem exists_reachable {γ : Type} {g : Kernel → γ} {v : γ} (tr : List Ev)
    (h : (demo.bind fun k => tr.foldlM next k).map g = some v) : ∃ k, Reachable k ∧ g k = v := by
  obtain ⟨k, hk, hv⟩ := Option.map_eq_some_iff.mp h
  obtain ⟨k₀, h₀, hrun⟩ := Option.bind_eq_some_iff.mp hk
  exact ⟨k, ⟨k₀, tr, demo_initial h₀, Run.of_foldlM steps_of_next tr hrun⟩, hv⟩

/-- The step as a function, for calls that return without leaving anything
half-done. -/
def nextClean (k : Kernel) : Ev → Option Kernel
  | .ringbuf p str op addr vaddr =>
      if k.Running p then
        (k.sysRingbuf p str op addr vaddr).toOption.bind fun s => if s.2 = 0 then some s.1 else none
      else none
  | e => k.next e

theorem cleanSteps_of_nextClean (h : Inv k) (hnext : k.nextClean e = some k') :
    CleanSteps k e k' := by
  cases e with
  | ringbuf p str op addr vaddr =>
    simp only [nextClean] at hnext
    split_ifs at hnext with hrun
    obtain ⟨⟨k₁, n⟩, hr, hn⟩ := Option.bind_eq_some_iff.mp hnext
    have hsys := toOption_eq_some hr
    simp only at hn
    split_ifs at hn with hzero
    obtain rfl := Option.some.inj hn
    refine ⟨⟨hrun, bind_eq_ok.mpr ⟨(k₁, n), hsys, rfl⟩⟩, ?_⟩
    by_contra hnot
    exact (not_cleanCall h hsys hnot).1 hzero
  | _ => exact ⟨steps_of_next hnext, trivial⟩

/-- A run of such calls, of which something was evaluated. -/
theorem exists_cleanRun {γ : Type} {g : Kernel → γ} {v : γ} (tr : List Ev)
    (h : (demo.bind fun k => tr.foldlM nextClean k).map g = some v) :
    ∃ k₀ k, Initial k₀ ∧ Run CleanSteps k₀ tr k ∧ g k = v := by
  obtain ⟨k, hk, hv⟩ := Option.map_eq_some_iff.mp h
  obtain ⟨k₀, h₀, hfold⟩ := Option.bind_eq_some_iff.mp hk
  have hinit := demo_initial h₀
  refine ⟨k₀, k, hinit, ?_, hv⟩
  have hrun : Run (fun k e k' => Inv k → CleanSteps k e k') k₀ tr k :=
    Run.of_foldlM (fun hnext hinv => cleanSteps_of_nextClean hinv hnext) tr hfold
  clear hfold hk hv h
  induction hrun with
  | nil => exact .nil k₀
  | snoc _ hlast ih => exact ih.snoc (hlast (inv_of_cleanRun hinit ih).1)

/-- A name of one letter. -/
def demoName : CStr := ⟨[97], by decide, by decide⟩

/-! ### The ring-buffer array -/

theorem Inv.nodup_ring (h : Inv k) (r : RingIx) : (k.ringbufs r).pages.Nodup := by
  have hnodup := h.nodup
  unfold Kernel.pages at hnodup
  have hr := nodup_of_nodup_sum hnodup (.ring r)
  rwa [held_ring] at hr

/-- Two processes that share a ring buffer. -/
def sharing : List Ev :=
  [.fork 0, .ringbuf 0 (some demoName) 1 0 0, .ringbuf 1 (some demoName) 1 0 0]

/-! ### Failed opens -/

/-- **A failed open leaves everything as it was if and only if it failed
early**: with an empty name, on a ring buffer that the caller owns or that has
two owners, or with no slot or fewer than seventeen pages for a new one. -/
theorem failed_open_unchanged_iff (h : Reachable k) {name : CStr} {addr vaddr : ℕ}
    {err : RingbufError} (hopen : k.ringbuf p name.bytes .open addr vaddr = .ok (k', .error err)) :
    Unchanged k p k' ↔ name.bytes = [] ∨ k.Early p name.bytes := by
  have hinv := h.inv
  unfold ringbuf at hopen
  by_cases hne : name.bytes = []
  · rw [hne, if_pos (.inr rfl)] at hopen
    obtain ⟨rfl, -⟩ := Prod.mk.inj (Except.ok.inj hopen)
    exact ⟨fun _ => .inl hne, fun _ => Unchanged.refl k p⟩
  rw [if_neg (CStr.not_badLength hne)] at hopen
  rcases open_cases hinv (CStr.not_badLength hne) name.nonzero hopen with ⟨hearly, -, hun, -⟩ |
    ⟨hlate, k₁, r, i, f, book, m, pt, hready, -, -, -, ⟨-, -, hres, -⟩ | ⟨top, ok, -, -, rfl⟩⟩
  · exact ⟨fun _ => .inr hearly, fun _ => hun⟩
  · cases hres
  · -- the counter of the caller's ring buffers is not set back
    refine ⟨fun hun => ?_, fun hcond => ?_⟩
    · have howned := hun.owned
      rw [undone_procs_self, hready.procs] at howned
      exact absurd howned (Nat.succ_ne_self _)
    · rcases hcond with hempty | hearly
      · exact absurd hempty hne
      · exact absurd hearly hlate

/-- An address no process has. -/
def badAddr : ℕ := 0x3000000000

theorem failed_open_unchanged_already_owner :
    ∃ k k' err, Reachable k ∧ k.ringbuf 0 demoName.bytes .open 0 0 = .ok (k', .error err) ∧
      k.Early 0 demoName.bytes ∧ Unchanged k 0 k' := by
  obtain ⟨k, hreach, hv⟩ := exists_reachable
    (g := fun k => (decide (k.Early 0 demoName.bytes),
      (k.ringbuf 0 demoName.bytes .open 0 0).toOption.map fun s => errorOf s.2))
    (v := (true, some (some .alreadyIsOwner))) [.ringbuf 0 (some demoName) 1 0 0]
    (by decide +kernel)
  obtain ⟨hearly, hres⟩ := Prod.mk.inj hv
  obtain ⟨⟨k', res⟩, hr, herr⟩ := Option.map_eq_some_iff.mp hres
  have hopen := toOption_eq_some hr
  obtain rfl : res = .error _ := eq_error_of_errorOf herr
  exact ⟨k, k', _, hreach, hopen, of_decide_eq_true hearly,
    (failed_open_unchanged_iff hreach hopen).mpr (.inr (of_decide_eq_true hearly))⟩

/-- The first open of a ring buffer, with nowhere to put the address: the
caller is counted as an owner. -/
theorem failed_open_changed :
    ∃ k k', Reachable k ∧ k.Running 0 ∧
      k.ringbuf 0 demoName.bytes .open badAddr 0 = .ok (k', .error .copyOutFailed) ∧
      ¬ Unchanged k 0 k' := by
  obtain ⟨k, hreach, hv⟩ := exists_reachable
    (g := fun k => (decide (k.Running 0), (k.procs 0).ownedRingbufs,
      (k.ringbuf 0 demoName.bytes .open badAddr 0).toOption.map fun s =>
        ((s.1.procs 0).ownedRingbufs, errorOf s.2)))
    (v := (true, 0, some (1, some .copyOutFailed))) [] (by decide +kernel)
  obtain ⟨hrun, hv⟩ := Prod.mk.inj hv
  obtain ⟨howned, hres⟩ := Prod.mk.inj hv
  obtain ⟨⟨k', res⟩, hr, hv⟩ := Option.map_eq_some_iff.mp hres
  obtain ⟨howned', herr⟩ := Prod.mk.inj hv
  have hopen := toOption_eq_some hr
  obtain rfl : res = .error _ := eq_error_of_errorOf herr
  refine ⟨k, k', hreach, of_decide_eq_true hrun, hopen, fun hun => ?_⟩
  have hsame := hun.owned
  rw [howned', howned] at hsame
  cases hsame

/-! ### What user processes see -/

/-- What a page can be in use for. -/
inductive Purpose
  | free
  | pipe
  | trapframe (p : ProcIx)
  | table (p : ProcIx)
  | user (p : ProcIx) (v : ℕ)
  | ring (r : RingIx)

/-- The page is on the free list, or has been handed out for the purpose. -/
def UsedFor (k : Kernel) (pa : ℕ) : Purpose → Prop
  | .free => pa ∈ k.mem.free
  | .pipe => pa ∈ k.pipes
  | .trapframe p => (k.procs p).trapframe = some pa
  | .table p => pa ∈ (k.procs p).pagetable.pages
  | .user p v => v < npages (k.procs p).sz ∧
      (leafAt (k.procs p).pagetable v).map Pte.pa = some pa
  | .ring r => pa ∈ (k.ringbufs r).pages

/-- **What a process has mapped with `PTE_U`** is there for nothing but its own
memory at that place or a ring buffer it owns; the pages of a ring buffer are
mapped in its owners' page tables only. -/
structure UserPagesOk (k : Kernel) : Prop where
  visible : ∀ p v pte, leafAt (k.procs p).pagetable v = some pte → pte.perm.u = true →
    ∀ u, k.UsedFor pte.pa u → u = .user p v ∨ ∃ r, u = .ring r ∧ k.Owns p r
  ring : ∀ r p v pte, leafAt (k.procs p).pagetable v = some pte →
    pte.pa ∈ (k.ringbufs r).pages → k.Owns p r

/-- Who holds a page that is in use. -/
def Purpose.holder : Purpose → Holder
  | .free => .free
  | .pipe => .pipes
  | .trapframe p | .table p | .user p _ => .proc p
  | .ring r => .ring r

theorem mem_held_of_usedFor {pa : ℕ} {u : Purpose} (h : k.UsedFor pa u) : pa ∈ k.held u.holder := by
  cases u with
  | free =>
    show pa ∈ k.held .free
    rw [held_free]
    exact h
  | pipe =>
    show pa ∈ k.held .pipes
    rw [held_pipes]
    exact h
  | trapframe p =>
    show pa ∈ k.held (.proc p)
    rw [held_proc]
    exact Proc.mem_pages_trapframe h
  | table p =>
    show pa ∈ k.held (.proc p)
    rw [held_proc]
    exact Proc.mem_pages_table h
  | user p v =>
    show pa ∈ k.held (.proc p)
    rw [held_proc]
    obtain ⟨hv, hleaf⟩ := h
    obtain ⟨pte, hpte, rfl⟩ := Option.map_eq_some_iff.mp hleaf
    exact Proc.mem_pages_user hv hpte
  | ring r =>
    show pa ∈ k.held (.ring r)
    rw [held_ring]
    exact h

theorem Inv.nodup_proc (h : Inv k) (p : ProcIx) : (k.procs p).pages.Nodup := by
  have hall := h.nodup
  unfold Kernel.pages at hall
  have hp := nodup_of_nodup_sum hall (.proc p)
  rwa [held_proc] at hp

/-- **A page is in use for one purpose.** -/
theorem Inv.purpose_unique (h : Inv k) {pa : ℕ} {u u' : Purpose} (hu : k.UsedFor pa u)
    (hu' : k.UsedFor pa u') : u = u' := by
  have hholder := h.holder_eq (mem_held_of_usedFor hu) (mem_held_of_usedFor hu')
  -- within a process the trapframe, the nodes and the user pages are different
  have hnodup := h.nodup_proc
  have hleaf : ∀ {p v}, k.UsedFor pa (.user p v) →
      pa ∈ leafPages (k.procs p).pagetable 0 (npages (k.procs p).sz) := by
    rintro p v ⟨hv, hmap⟩
    obtain ⟨pte, hpte, hpa⟩ := Option.map_eq_some_iff.mp hmap
    exact mem_leafPages.mpr ⟨v, pte, Nat.zero_le v, by omega, hpte, hpa⟩
  have htf : ∀ {p}, k.UsedFor pa (.trapframe p) → pa ∈ (k.procs p).trapframe.toList := by
    intro p hp
    rw [show (k.procs p).trapframe = some pa from hp]
    simp
  have htable : ∀ {p}, k.UsedFor pa (.trapframe p) → ¬ k.UsedFor pa (.table p) := by
    intro p hp ht
    exact (List.nodup_append'.mp (List.nodup_append'.mp (hnodup p)).1).2.2 (htf hp) ht
  have huser : ∀ {p v}, k.UsedFor pa (.user p v) →
      ¬ k.UsedFor pa (.trapframe p) ∧ ¬ k.UsedFor pa (.table p) := by
    intro p v hv
    have hdisj := (List.nodup_append'.mp (hnodup p)).2.2
    exact ⟨fun hp => hdisj (List.mem_append_left _ (htf hp)) (hleaf hv),
      fun ht => hdisj (List.mem_append_right _ ht) (hleaf hv)⟩
  cases u <;> cases u' <;> simp only [Purpose.holder, reduceCtorEq, Holder.proc.injEq,
    Holder.ring.injEq] at hholder <;> try subst hholder
  any_goals rfl
  · exact absurd hu' (htable hu)
  · exact absurd hu (huser hu').1
  · exact absurd hu (htable hu')
  · exact absurd hu (huser hu').2
  · exact absurd hu' (huser hu).1
  · exact absurd hu' (huser hu).2
  · obtain ⟨hv, hmap⟩ := hu
    obtain ⟨hw, hmap'⟩ := hu'
    rw [leafPages_injective (List.nodup_append'.mp (hnodup _)).2.1 hv hw hmap hmap']

/-- Without stray mappings everything is in order. -/
theorem Inv.userPagesOk (h : Inv k) (hno : NoStray k) : UserPagesOk k := by
  -- where a mapping can be
  have hwhere : ∀ p v pte, leafAt (k.procs p).pagetable v = some pte →
      v = trampolineVpn ∨ v = trapframeVpn ∨ v < npages (k.procs p).sz ∨
        ∃ r, k.Owns p r ∧ pte.pa ∈ (k.ringbufs r).pages := by
    intro p v pte hleaf
    by_contra hnone
    push Not at hnone
    obtain ⟨h₁, h₂, h₃, h₄⟩ := hnone
    refine hno p v ⟨by simp [hleaf], h₁, h₂, h₃, ?_⟩
    intro r i b hown hb hin
    obtain ⟨-, b', hatt⟩ := h.owner r i p hown
    have hbb : b' * pgSize = b * pgSize := by
      rw [hatt.vbook] at hb
      exact Option.some.inj hb
    rw [← Nat.eq_of_mul_eq_mul_right pgSize_pos hbb] at hin
    obtain ⟨pte', hpte', hmem⟩ := h.attached_leaf hown hatt hin
    cases hleaf.symm.trans hpte'
    exact h₄ r ⟨i, hown⟩ hmem
  constructor
  · intro p v pte hleaf hu u hused
    obtain ⟨tf, -, hspace⟩ := (h.proc p).space (isNull_of_leafAt hleaf)
    rcases hwhere p v pte hleaf with rfl | rfl | hv | ⟨r, hown, hmem⟩
    · rw [hspace.trampoline] at hleaf
      cases hleaf
      cases hu
    · rw [hspace.trapframe] at hleaf
      cases hleaf
      cases hu
    · have huser : k.UsedFor pte.pa (.user p v) := ⟨hv, by rw [hleaf]; rfl⟩
      exact .inl (h.purpose_unique hused huser)
    · have hring : k.UsedFor pte.pa (.ring r) := hmem
      exact .inr ⟨r, h.purpose_unique hused hring, hown⟩
  · intro r p v pte hleaf hmem
    obtain ⟨h₁, h₂, h₃⟩ := h.leaf_of_ring_page hleaf hmem
    obtain ⟨s, hown, hmem'⟩ :=
      (((hwhere p v pte hleaf).resolve_left h₁).resolve_left h₂).resolve_left h₃.not_gt
    exact h.ring_of_page hmem hmem' ▸ hown

/-- **No freed page is visible to a user as long as opens are clean, and not
any longer**: in a run of calls that left nothing half-done the user pages are
in order, and after the next call they are if and only if it leaves nothing
half-done either. -/
theorem user_pages_iff_clean (h₀ : Initial k₀) (hrun : Run CleanSteps k₀ tr k) :
    UserPagesOk k ∧ ∀ e k', Steps k e k' → (UserPagesOk k' ↔ k.OpenOk e) := by
  obtain ⟨hinv, hno⟩ := inv_of_cleanRun h₀ hrun
  refine ⟨hinv.userPagesOk hno, fun e k' hstep => ⟨fun hok => ?_, fun hopen => ?_⟩⟩
  · by_contra hnot
    obtain ⟨p, v, pa, hleaf, hfree⟩ := not_openOk hinv hstep hnot
    rcases hok.visible p v _ hleaf rfl .free hfree with hu | ⟨r, hu, -⟩
    · cases hu
    · cases hu
  · obtain ⟨hinv', hno'⟩ := inv_of_cleanRun h₀ (hrun.snoc ⟨hstep, hopen⟩)
    exact hinv'.userPagesOk hno'

theorem user_pages_iff_clean_sharing :
    ∃ k₀ k, Initial k₀ ∧ Run CleanSteps k₀ sharing k ∧ (k.ringbufs 0).refcount = 2 ∧
      UserPagesOk k ∧ ∀ e k', Steps k e k' → (UserPagesOk k' ↔ k.OpenOk e) := by
  obtain ⟨k₀, k, h₀, hrun, hcount⟩ :=
    exists_cleanRun (g := fun k => (k.ringbufs 0).refcount) (v := 2) sharing (by decide +kernel)
  exact ⟨k₀, k, h₀, hrun, hcount, user_pages_iff_clean h₀ hrun⟩

/-- An open that could not hand out the address: the buffer's first page is
free, and the process has it mapped. -/
theorem freed_page_visible : ∃ k, Reachable k ∧ ¬ UserPagesOk k := by
  obtain ⟨k, hreach, hv⟩ := exists_reachable
    (g := fun k => (leafAt (k.procs 0).pagetable (trapframeVpn - 2)).map fun pte =>
      (pte.perm.u, decide (pte.pa ∈ k.mem.free)))
    (v := some (true, true)) [.ringbuf 0 (some demoName) 1 badAddr 0] (by decide +kernel)
  obtain ⟨pte, hleaf, hpte⟩ := Option.map_eq_some_iff.mp hv
  obtain ⟨hu, hfree⟩ := Prod.mk.inj hpte
  refine ⟨k, hreach, fun hok => ?_⟩
  have hmem : pte.pa ∈ k.mem.free := of_decide_eq_true hfree
  rcases hok.visible 0 _ pte hleaf hu .free hmem with h | ⟨r, h, -⟩
  · cases h
  · cases h

/-! ### Teardown -/

/-- **Address spaces are torn down in order as long as opens are clean and no
owner of a ring buffer comes to the commit of `exec`**: in a run of calls that
left nothing half-done every page table that was torn down had the mappings of
its size only and was freed once, and the next call stops the kernel with a
panic of a teardown if and only if it is such an `exec`. -/
theorem teardown_in_order (h₀ : Initial k₀) (hrun : Run CleanSteps k₀ tr k) :
    (∀ t ∈ k.teardowns, Clean t) ∧
      ∀ e, k.Runs e → ((∀ err, k.syscall e = .error err → ¬ err.Teardown) ↔ k.ExecOk e) := by
  obtain ⟨hinv, hno⟩ := inv_of_cleanRun h₀ hrun
  refine ⟨hinv.teardown, fun e hruns => ?_⟩
  have hends := syscall_ends hinv hruns
  constructor
  · intro hsafe
    rcases hcall : k.syscall e with err | k'
    · by_contra hnot
      exact hsafe err hcall ((hends.of_error hcall).2 hnot)
    · exact (hends.of_ok hcall).2.2
  · intro hexec err hcall hteardown
    rcases (hends.of_error hcall).1 hteardown with ⟨j, v, hstray⟩ | hnot
    · exact hno j v hstray
    · exact hnot hexec

/-- A child that exits and is reaped while its parent owns a ring buffer. -/
theorem teardown_in_order_reaped :
    ∃ k₀ tr k, Initial k₀ ∧ Run CleanSteps k₀ tr k ∧ k.teardowns.length = 1 ∧
      (∀ t ∈ k.teardowns, Clean t) ∧
      ∀ e, k.Runs e → ((∀ err, k.syscall e = .error err → ¬ err.Teardown) ↔ k.ExecOk e) := by
  obtain ⟨k₀, k, h₀, hrun, hlog⟩ :=
    exists_cleanRun (g := fun k => k.teardowns.length) (v := 1)
      [.ringbuf 0 (some demoName) 1 0 0, .fork 0, .exit 1, .wait 0 0] (by decide +kernel)
  exact ⟨k₀, _, k, h₀, hrun, hlog, teardown_in_order h₀ hrun⟩

/-- A program of one page. -/
def demoExec : Ev := .exec 0 true (some [.load 0 100 100 false true 1]) []

/-- `exec` by a process that owns a ring buffer. -/
theorem exec_of_owner_panics :
    ∃ k, Reachable k ∧ k.Runs demoExec ∧ k.syscall demoExec = .error .freewalkLeaf := by
  obtain ⟨k, hreach, hv⟩ := exists_reachable
    (g := fun k => (decide (k.Runs demoExec), errorOf (k.syscall demoExec)))
    (v := (true, some .freewalkLeaf)) [.ringbuf 0 (some demoName) 1 0 0] (by decide +kernel)
  obtain ⟨hruns, herr⟩ := Prod.mk.inj hv
  exact ⟨k, hreach, of_decide_eq_true hruns, eq_error_of_errorOf herr⟩

/-! ### Calls that stop the kernel -/

/-- An operation that is none, and a second owner with nowhere to put the
address. -/
theorem sysRingbuf_unsafe :
    (∃ k, Reachable k ∧ k.Running 0 ∧
      k.sysRingbuf 0 (some demoName) 2 0 0 = .error .illegalOp) ∧
    ∃ k, Reachable k ∧ k.Running 1 ∧
      k.sysRingbuf 1 (some demoName) 1 badAddr 0 = .error .ringbufHasOwners := by
  constructor
  · obtain ⟨k, hreach, hv⟩ := exists_reachable
      (g := fun k => (decide (k.Running 0), errorOf (k.sysRingbuf 0 (some demoName) 2 0 0)))
      (v := (true, some .illegalOp)) [] (by decide +kernel)
    obtain ⟨hrun, herr⟩ := Prod.mk.inj hv
    exact ⟨k, hreach, of_decide_eq_true hrun, eq_error_of_errorOf herr⟩
  · obtain ⟨k, hreach, hv⟩ := exists_reachable
      (g := fun k => (decide (k.Running 1), errorOf (k.sysRingbuf 1 (some demoName) 1 badAddr 0)))
      (v := (true, some .ringbufHasOwners)) [.fork 0, .ringbuf 0 (some demoName) 1 0 0]
      (by decide +kernel)
    obtain ⟨hrun, herr⟩ := Prod.mk.inj hv
    exact ⟨k, hreach, of_decide_eq_true hrun, eq_error_of_errorOf herr⟩

end Kernel

end Xv6Zig
