/-
Xv6Zig/RingRuns.lean

The ring-buffer array along runs of the machine.

`allocPage` follows the links that it finds in free pages, so a page is on the free
list if the links in memory lead to it (`Listed`).  In runs that leave nothing
half-done this is the list of the model.  A failed open leaves free pages mapped,
though, and then the next open can be told to put the address of its buffer over a
link: `page_of_ring_listed`.

Main results: `ringbufs_consistent` and `sysRingbuf_safe_iff`, about every such run.
-/
import Xv6Zig.RingContents

namespace Xv6Zig

open Lib

/-- Following the links from `p` one comes to the page `pa`. -/
inductive Listed (mem : Bytes) : ℕ → ℕ → Prop
  | here {p : ℕ} : p ≠ 0 → Listed mem p p
  | next {p pa : ℕ} : p ≠ 0 → Listed mem (mem.load p 8) pa → Listed mem p pa

namespace Chain

variable {mem mem' : Bytes} {l rest : List ℕ} {p pa a q : ℕ}

theorem mem_of_listed (h : Chain mem p l) (hpa : Listed mem p pa) : pa ∈ l := by
  induction hpa generalizing l with
  | here hp =>
    cases l with
    | nil => exact absurd h hp
    | cons a l =>
      obtain ⟨rfl, -⟩ := h
      exact List.mem_cons_self
  | next hp _ ih =>
    cases l with
    | nil => exact absurd h hp
    | cons a l =>
      obtain ⟨rfl, -, hrest⟩ := h
      exact List.mem_cons_of_mem _ (ih hrest)

theorem link (h : Chain mem p (l ++ a :: q :: rest)) : mem.load a 8 = q := by
  induction l generalizing p with
  | nil => exact h.2.2.1
  | cons b l ih => exact ih h.2.2

/-- Where one link has changed the list goes on with what is there now. -/
theorem listed_of_link (h : Chain mem p (l ++ a :: rest))
    (hsame : ∀ b ∈ l, mem'.load b 8 = mem.load b 8) (hlink : mem'.load a 8 = q) (hq : q ≠ 0) :
    Listed mem' p q := by
  induction l generalizing p with
  | nil =>
    obtain ⟨rfl, hp, -⟩ := h
    exact .next hp (hlink.symm ▸ .here hq)
  | cons b l ih =>
    obtain ⟨rfl, hp, hrest⟩ := h
    refine .next hp ?_
    rw [hsame p List.mem_cons_self]
    exact ih hrest fun c hc => hsame c (List.mem_cons_of_mem _ hc)

end Chain

namespace Kernel

variable {k k' : Kernel} {M₀ M : Machine} {tr : List MachineEv}

/-! ### The array -/

/-- **What every slot of the array satisfies.** -/
structure RingbufsOk (k : Kernel) (listed : ℕ → Prop) : Prop where
  count : ∀ r, (k.ringbufs r).refcount = (k.ringbufs r).ownerCount ∧ (k.ringbufs r).refcount ≤ 2
  distinct : ∀ r p, ((k.ringbufs r).owners 0).proc = some p → ((k.ringbufs r).owners 1).proc ≠ some p
  used : ∀ r i p, ((k.ringbufs r).owners i).proc = some p → (k.procs p).state ≠ .unused
  idle : ∀ r, (k.ringbufs r).refcount = 0 →
    (∀ i, (k.ringbufs r).bufPages i = none) ∧ (k.ringbufs r).bookPage = none
  active : ∀ r, 0 < (k.ringbufs r).refcount →
    (∀ i, (k.ringbufs r).bufPages i ≠ none) ∧ (k.ringbufs r).bookPage ≠ none
  pages : ((List.finRange 10).flatMap fun r => (k.ringbufs r).pages).Nodup
  free : ∀ r, ∀ pa ∈ (k.ringbufs r).pages, ¬ listed pa
  names : ∀ r s, 0 < (k.ringbufs r).refcount → 0 < (k.ringbufs s).refcount →
    (k.ringbufs r).name = (k.ringbufs s).name → r = s

/-- **The ring-buffer array is consistent** in every state of a run in which no open
failed half-way, whatever the processes have stored in their pages. -/
theorem ringbufs_consistent (h₀ : Machine.Initial M₀) (hrun : Run Machine.CleanSteps M₀ tr M) :
    RingbufsOk M.kernel (Listed M.heap.mem M.heap.freelist) := by
  have hok := Machine.Ok.run h₀ hrun
  have hinv := hok.inv
  refine ⟨?_, ?_, ?_, ?_, ?_, ?_, ?_, ?_⟩
  · intro r
    refine ⟨(hinv.ring r).count, ?_⟩
    rw [(hinv.ring r).count]
    exact Finset.card_le_univ _
  · intro r p h0 h1
    exact absurd ((hinv.ring r).distinct 0 1 p h0 h1) (by decide)
  · exact fun r i p hown => (hinv.owner r i p hown).1
  · intro r h0
    obtain ⟨hbuf, hbook⟩ := (hinv.ring r).idle h0
    exact ⟨fun i => congrFun hbuf i, hbook⟩
  · intro r hpos
    obtain ⟨f, book, hholds⟩ := (hinv.ring r).active hpos.ne'
    rw [hholds.buf, hholds.book]
    exact ⟨fun i => Option.some_ne_none _, Option.some_ne_none _⟩
  · rw [List.nodup_flatMap]
    refine ⟨fun r _ => hinv.nodup_ring r, ?_⟩
    refine (List.nodup_finRange 10).imp ?_
    exact fun hrs pa hr hs => hrs (hinv.ring_of_page hr hs)
  · -- where the links lead is free in the model, too
    intro r pa hr hlisted
    have hfree := hok.heap.chain.mem_of_listed hlisted
    rw [← Multiset.mem_coe, ← held_ring] at hr
    rw [← Multiset.mem_coe, ← held_free] at hfree
    cases hinv.holder_eq hr hfree
  · exact fun r s hr hs => hinv.name r s hr.ne' hs.ne'

/-! ### Two processes -/

/-- The pages of the machine with sixty pages, from `i` on. -/
def pagesFrom (i n : ℕ) : List ℕ := (List.range' i n).map demoPage

def opensAt (p : ProcIx) (name : CStr) (addr : ℕ) : Ev := .ringbuf p (some name) 1 addr 0

/-- Its first process has opened a ring buffer and made another process. -/
def forked : Option Kernel := do
  let k₀ ← machine
  let k₁ ← k₀.nextClean (opensAt 0 otherName 0)
  k₁.nextClean (.fork 0)

/-- The same in memory. -/
theorem exists_forked : ∃ M₀ M t₁ t₂, Machine.Initial M₀ ∧ forked = some M.kernel ∧
    M.kernel.mem = ⟨0x80100000, pagesFrom 31 29⟩ ∧
    Run Machine.CleanSteps M₀ [.call (opensAt 0 otherName 0) t₁, .call (.fork 0) t₂] M := by
  have hrun : (do
      let k₀ ← machine
      let k₁ ← k₀.nextClean (opensAt 0 otherName 0)
      let k₂ ← k₁.nextClean (.fork 0)
      some (k₀.mem, k₁.mem, k₂.mem)) = some (⟨0x80100000, pagesFrom 7 53⟩,
        ⟨0x80100000, pagesFrom 24 36⟩, ⟨0x80100000, pagesFrom 31 29⟩) := by decide +kernel
  obtain ⟨k₀, hk₀, hrun⟩ := Option.bind_eq_some_iff.mp hrun
  obtain ⟨k₁, hk₁, hrun⟩ := Option.bind_eq_some_iff.mp hrun
  obtain ⟨k₂, hk₂, hrun⟩ := Option.bind_eq_some_iff.mp hrun
  obtain ⟨hmem₀, hmem⟩ := Prod.mk.inj (Option.some.inj hrun)
  obtain ⟨hmem₁, hmem₂⟩ := Prod.mk.inj hmem
  obtain ⟨s₀, hs₀⟩ := Heap.exists_rep 0x80100000 (pagesFrom 7 53) (by decide) (by decide) (by decide)
  have h₀ : Machine.Initial ⟨k₀, s₀⟩ := ⟨machine_initial hk₀, hmem₀ ▸ (by decide), hmem₀ ▸ hs₀⟩
  have h₁ := cleanSteps_of_nextClean h₀.ok.inv hk₁
  have h₂ := cleanSteps_of_nextClean (inv_step h₀.ok.inv h₁.1) hk₂
  -- the open takes seventeen pages, the fork seven
  have ht₁ : Run KmemStep k₀.mem ((pagesFrom 7 17).map .kalloc) k₁.mem := by
    rw [hmem₀, hmem₁]
    exact run_kalloc _ (pagesFrom 7 17) (pagesFrom 24 36)
  have ht₂ : Run KmemStep k₁.mem ((pagesFrom 24 7).map .kalloc) k₂.mem := by
    rw [hmem₁, hmem₂]
    exact run_kalloc _ (pagesFrom 24 7) (pagesFrom 31 29)
  obtain ⟨s₁, hcall₁, hs₁⟩ := Machine.exists_call h₁.1 h₀.kend h₀.heap ht₁
  obtain ⟨s₂, hcall₂, -⟩ := Machine.exists_call h₂.1 (hmem₁ ▸ (by decide)) hs₁ ht₂
  refine ⟨⟨k₀, s₀⟩, ⟨k₂, s₂⟩, _, _, h₀, ?_, hmem₂,
    (Run.single ⟨hcall₁, h₁.2⟩).append (Run.single ⟨hcall₂, h₂.2⟩)⟩
  unfold forked
  rw [hk₀]
  exact (congrArg (fun o => o >>= _) hk₁).trans hk₂

/-- Both processes have it open. -/
theorem ringbufs_consistent_shared : ∃ M₀ tr M, Machine.Initial M₀ ∧
    Run Machine.CleanSteps M₀ tr M ∧ (M.kernel.ringbufs 0).refcount = 2 ∧
    RingbufsOk M.kernel (Listed M.heap.mem M.heap.freelist) := by
  obtain ⟨M₀, M, t₁, t₂, h₀, hM, hmem, hrun⟩ := exists_forked
  obtain ⟨k, hk, hcount, hmem'⟩ := exists_of_decide
    (o := forked.bind fun k => k.nextClean (opensAt 1 otherName 0))
    (P := fun k => (k.ringbufs 0).refcount = 2 ∧ k.mem = ⟨0x80100000, pagesFrom 31 29⟩)
    (by decide +kernel)
  rw [hM, Option.bind_some] at hk
  have hok := Machine.Ok.run h₀ hrun
  have hstep := cleanSteps_of_nextClean hok.inv hk
  have hsame : Run KmemStep M.kernel.mem [] k.mem := by
    rw [hmem, hmem']
    exact .nil _
  obtain ⟨s, hcall, -⟩ := Machine.exists_call hstep.1 hok.kend hok.heap hsame
  have hclean : Machine.CleanSteps M _ _ := ⟨hcall, hstep.2⟩
  have hrun' := hrun.append (Run.single hclean)
  exact ⟨M₀, _, _, h₀, hrun', hcount, ringbufs_consistent h₀ hrun'⟩

/-! ### An address over a link -/

/-- The address is put across the start of the page that is mapped third. -/
def overLink : UInt64 := UInt64.ofNat ((trapframeVpn - 3) * pgSize - 6)

/-- Where its bytes come to lie. -/
def overLinkAddrs : List ℕ :=
  List.range' (demoPage 33 + 4090) 6 ++ [demoPage 32, demoPage 32 + 1]

/-- The second process has failed to open a ring buffer, late, and then opens the one
of the first. -/
theorem forked_overLink : ∃ k, (forked.bind fun k => k.next (opensAt 1 demoName badAddr)) = some k ∧
    k.mem = ⟨0x80100000, (pagesFrom 31 17).reverse ++ pagesFrom 48 12⟩ ∧ k.Running 1 ∧
    (k.openRingbuf 1 otherName.bytes overLink.toNat).toOption.map
      (fun s => (errorOf s.2, s.1.mem, decide (demoPage 16 ∈ (s.1.ringbufs 0).pages)))
        = some (none, k.mem, true) ∧
    (k.openRingbuf 1 otherName.bytes overLink.toNat).toOption.map
      (fun s => ((copyAddrs (s.1.procs 1).pagetable 8 overLink.toNat 8).1,
        leBytes 8 (add64 (s.1.procs 1).topFreeUvmPg (3 * pgSize))))
        = some (overLinkAddrs, [0, 192, 251, 255, 63, 0, 0, 0]) :=
  exists_of_decide (by decide +kernel)

/-- The link to page 31 becomes one to page 16. -/
theorem load_overLink {mem mem' : Bytes} (hlink : mem.load (demoPage 32) 8 = demoPage 31)
    (hzero : mem' (demoPage 32) = 0 ∧ mem' (demoPage 32 + 1) = 0)
    (hsame : ∀ x ∉ overLinkAddrs, mem' x = mem x) : mem'.load (demoPage 32) 8 = demoPage 16 := by
  have hfar : ∀ a ∈ overLinkAddrs, a < demoPage 32 + 1 + 1 ∨ demoPage 32 + 1 + 1 + 6 ≤ a := by decide
  -- of the link only the two low bytes change
  have hrest : mem'.load (demoPage 32 + 1 + 1) 6 = mem.load (demoPage 32 + 1 + 1) 6 := by
    apply Bytes.load_congr
    intro x h₁ h₂
    refine hsame x fun hin => ?_
    have := hfar x hin
    omega
  have hold : (mem (demoPage 32)).toNat + 256 * ((mem (demoPage 32 + 1)).toNat +
    256 * mem.load (demoPage 32 + 1 + 1) 6) = demoPage 31 := hlink
  show (mem' (demoPage 32)).toNat + 256 * ((mem' (demoPage 32 + 1)).toNat +
    256 * mem'.load (demoPage 32 + 1 + 1) 6) = demoPage 16
  have h0 := (mem (demoPage 32)).toNat_lt
  have h1 := (mem (demoPage 32 + 1)).toNat_lt
  rw [hrest, hzero.1, hzero.2]
  generalize mem.load (demoPage 32 + 1 + 1) 6 = rest at hold ⊢
  simp only [demoPage, pgSize, UInt8.toNat_zero] at hold h0 h1 ⊢
  omega

/-- **A page of an active ring buffer on the free list.**  All calls are system calls
of two processes; the last one puts the address of its buffer over a link. -/
theorem page_of_ring_listed : ∃ M₀ M t₁ t₂ t₃ k mem, Machine.Initial M₀ ∧
    Run Machine.Steps M₀ [.call (opensAt 0 otherName 0) t₁, .call (.fork 0) t₂,
      .call (opensAt 1 demoName badAddr) t₃] M ∧ M.kernel.Running 1 ∧
    M.kernel.ringbuf 1 otherName.bytes .open overLink.toNat 0 = .ok (k, .ok ()) ∧
    k.mem = M.kernel.mem ∧
    (StoreCall.ringbuf otherName overLink).perform M.kernel 1 M.heap.mem = .ok (mem, 0) ∧
    ¬ RingbufsOk k (Listed mem M.heap.freelist) := by
  obtain ⟨M₀, M, t₁, t₂, h₀, hM, hmem, hrun⟩ := exists_forked
  obtain ⟨k, hk, hmem', hrunning, hopen, hbytes⟩ := forked_overLink
  rw [hM, Option.bind_some] at hk
  have hok := Machine.Ok.run h₀ hrun
  -- seventeen pages are taken and given back
  have htr : Run KmemStep M.kernel.mem ((pagesFrom 31 17).map .kalloc ++ (pagesFrom 31 17).map .kfree)
      k.mem := by
    rw [hmem, hmem']
    exact (run_kalloc _ (pagesFrom 31 17) (pagesFrom 48 12)).append
      (run_kfree (by decide) (by decide))
  obtain ⟨s, hcall, hrep⟩ := Machine.exists_call (steps_of_next hk) hok.kend hok.heap htr
  obtain ⟨⟨k', res⟩, hres, hv⟩ := Option.map_eq_some_iff.mp hopen
  rw [hres] at hbytes
  obtain ⟨herr, hv⟩ := Prod.mk.inj hv
  obtain ⟨hsame, hpage⟩ := Prod.mk.inj hv
  obtain ⟨haddrs, hdata⟩ := Prod.mk.inj (Option.some.inj hbytes)
  obtain rfl : res = .ok () := by
    rcases res with e | -
    · cases herr
    · rfl
  have hopened := toOption_eq_some hres
  have hname : otherName.bytes ≠ [] := by decide
  obtain ⟨hperf, -⟩ := StoreCall.ringbuf_writes hname hopened s.mem
  have hsteps := (hrun.mono fun h => h.1).append (Run.single hcall)
  refine ⟨M₀, ⟨k, s⟩, t₁, t₂, _, k', _, h₀, hsteps, hrunning, ?_, hsame, hperf, fun hnot => ?_⟩
  · rw [ringbuf, if_neg (CStr.not_badLength hname)]
    exact hopened
  · refine hnot.free 0 (demoPage 16) (of_decide_eq_true hpage) ?_
    have hchain : Chain s.mem s.freelist ((pagesFrom 33 15).reverse ++ demoPage 32 ::
        demoPage 31 :: pagesFrom 48 12) := by
      have := hrep.chain
      rwa [hmem'] at this
    -- two of the eight bytes go to the start of page 32, which is free
    have hwritten : (copyoutBytes (k'.procs 1).pagetable s.mem overLink.toNat
        (leBytes 8 (add64 (k'.procs 1).topFreeUvmPg (3 * pgSize)))).1
          = applyUpdates s.mem (overLinkAddrs.zip [0, 192, 251, 255, 63, 0, 0, 0]) := by
      unfold copyoutBytes
      rw [hdata]
      show applyUpdates s.mem ((copyAddrs _ 8 _ 8).1.zip _) = _
      rw [haddrs]
    rw [hwritten]
    have hout : ∀ x ∉ overLinkAddrs,
        applyUpdates s.mem (overLinkAddrs.zip [0, 192, 251, 255, 63, 0, 0, 0]) x = s.mem x :=
      fun x hx => applyUpdates_of_notMem _ hx
    refine hchain.listed_of_link (fun b hb => ?_)
      (load_overLink hchain.link ⟨rfl, rfl⟩ hout) (by decide)
    -- the links in front of it stay as they were
    have hfar : ∀ b ∈ (pagesFrom 33 15).reverse, ∀ a ∈ overLinkAddrs, a < b ∨ b + 8 ≤ a := by decide
    apply Bytes.load_congr
    intro x h₁ h₂
    refine hout x fun hin => ?_
    have := hfar b hb x hin
    omega

/-! ### Calls that stop the kernel -/

/-- **When `sys_ringbuf` returns**, with 0 or the negative code of an error: in every
state of such a run, where the list in memory is the one of the model. -/
theorem sysRingbuf_safe_iff (h₀ : Machine.Initial M₀) (hrun : Run Machine.CleanSteps M₀ tr M)
    (p : ProcIx) (str : Option CStr) (op : Int32) (addr vaddr : ℕ) :
    M.heap.Rep M.kernel.mem ∧
    ((∃ k' n, M.kernel.sysRingbuf p str op addr vaddr = .ok (k', n) ∧
      (n = 0 ∨ n < 0 ∧ ∃ err, n = intFromErr err)) ↔ M.kernel.SafeCall p str op addr) := by
  have hok := Machine.Ok.run h₀ hrun
  refine ⟨hok.heap, ?_⟩
  have hiff : (∃ s, M.kernel.sysRingbuf p str op addr vaddr = .ok s) ↔
      M.kernel.SafeCall p str op addr := sysRingbuf_returns_iff hok.inv
  rw [← hiff]
  constructor
  · rintro ⟨k', n, hr, -⟩
    exact ⟨_, hr⟩
  · rintro ⟨⟨k', n⟩, hr⟩
    obtain ⟨res, rfl⟩ := sysRingbuf_retval hr
    refine ⟨k', _, hr, ?_⟩
    rcases res with err | u
    · exact .inr ⟨intFromErr_neg err, err, rfl⟩
    · exact .inl rfl

theorem sysRingbuf_safe_iff_close : ∃ M₀ tr M, Machine.Initial M₀ ∧
    Run Machine.CleanSteps M₀ tr M ∧ ∃ k' n,
      M.kernel.sysRingbuf 0 (some otherName) 0 0 0 = .ok (k', n) ∧
      (n = 0 ∨ n < 0 ∧ ∃ err, n = intFromErr err) := by
  obtain ⟨M₀, M, t₁, t₂, h₀, -, -, hrun⟩ := exists_forked
  refine ⟨M₀, _, M, h₀, hrun,
    (sysRingbuf_safe_iff h₀ hrun 0 (some otherName) 0 0 0).2.mpr ⟨.inr (.inl rfl), ?_⟩⟩
  exact fun name hname => absurd (mem_opens.mp hname).2.1 (by decide)

end Kernel

end Xv6Zig
