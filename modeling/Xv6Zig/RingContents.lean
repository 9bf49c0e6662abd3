/-
Xv6Zig/RingContents.lean

What a ring buffer contains when it is new.

Here the kernel has its memory: the free list lies in the free pages, the pages
of a ring buffer are filled by `allocPage` and the head of its book is set to
zero by `activate`.  A `Machine` takes system calls and stores of user
processes.  Of what a call writes to pages that are not free nothing is said; a
process can store where its page table lets it.

As long as no free page is written to, the list in memory is the one of the
model (`Machine.Ok`), the seventeen pages are different, and a process that opens
a new ring buffer finds fives, and zeros in the book (`FreshOpen.seen_of_wiped`).
A failed open leaves free pages mapped, though, and a store to one of them is a
store to the free list.  What happens to the pages then depends on the store
(`stores_show`).
-/
import Mathlib.Algebra.Order.BigOperators.Group.Finset
import Xv6Zig.FreeList
import Xv6Zig.UserStores

namespace Xv6Zig

open Lib Function

/-! ### `activate` in memory -/

namespace Heap

/-- Allocate up to `n` pages, in order. -/
def allocPages : ℕ → Heap → List ℕ × Heap
  | 0, s => ([], s)
  | n + 1, s =>
      match s.allocPage with
      | (none, s) => ([], s)
      | (some pa, s) =>
          let (got, s) := allocPages n s
          (pa :: got, s)

/-- `kalloc.freePage(pa) catch @panic("failed to free page")`. -/
def freeRingPage (kend : ℕ) (s : Heap) (pa : ℕ) : Except Panic Heap :=
  match s.freePage kend pa with
  | .ok s => .ok s
  | .error _ => .error .failedToFreePage

/-- `activate`.  A new `Book` is sixteen bytes of zeros. -/
def activate (kend : ℕ) (s : Heap) (rb : Ringbuf) (name : List UInt8) :
    Except Panic (Heap × Ringbuf × Except RingbufError Unit) :=
  if 0 < rb.refcount then .ok (s, rb, .error .alreadyActive)
  else if name.length > maxNameLen ∨ name.length = 0 then .ok (s, rb, .error .badNameLength)
  else
    let (got, s) := s.allocPages 16
    let (book, s) := s.allocPage
    let rb := { rb with
      nameBuf := nameBufOf name
      bufPages := fun i => got[i.val]? <|> rb.bufPages i
      bookPage := book }
    if got.length < 16 ∨ book = none then do
      let s ← (match book with
        | some pa => s.freeRingPage kend pa
        | none => .ok s)
      let s ← got.foldlM (freeRingPage kend) s
      let rb := { rb with
        bufPages := fun i => if i.val < got.length then none else rb.bufPages i
        bookPage := none }
      .ok (s, rb, .error .outOfMemory)
    else .ok ({ s with mem := s.mem.store (intFromPtr book) 16 0 }, rb, .ok ())

/-- The next pages `allocPage` hands out. -/
def HandsOut : Heap → List ℕ → Prop
  | _, [] => True
  | s, pa :: l => s.allocPage.1 = some pa ∧ HandsOut s.allocPage.2 l

variable {s s' : Heap} {m : Kmem} {l : List ℕ} {n : ℕ}

theorem allocPages_of_handsOut (h : s.HandsOut l) (hn : n ≤ l.length) :
    (s.allocPages n).1 = l.take n ∧ (s.allocPages n).2.HandsOut (l.drop n) := by
  induction n generalizing s l with
  | zero => exact ⟨rfl, h⟩
  | succ n ih =>
    rcases l with - | ⟨pa, l⟩
    · exact absurd hn (Nat.not_succ_le_zero n)
    obtain ⟨hpa, hrest⟩ := h
    obtain ⟨hgot, hmore⟩ := ih hrest (Nat.le_of_succ_le_succ hn)
    have hround : s.allocPages (n + 1)
        = (pa :: (s.allocPage.2.allocPages n).1, (s.allocPage.2.allocPages n).2) := by
      rw [allocPages, show s.allocPage = (some pa, s.allocPage.2) from Prod.ext hpa rfl]
    rw [hround, hgot]
    exact ⟨rfl, hmore⟩

/-- A page that goes out is full of fives; nothing else changes. -/
theorem allocPage_mem {pa : ℕ} (h : s.allocPage.1 = some pa) :
    s.allocPage.2.mem = s.mem.fill pa pgSize 5 := by
  unfold allocPage at h ⊢
  by_cases hzero : s.freelist = 0
  · simp [hzero] at h
  · simp only [ne_eq, hzero, not_false_eq_true, if_true, Option.some.injEq] at h ⊢
    rw [h]

theorem allocPage_none (h : s.allocPage = (none, s')) : s' = s := by
  unfold allocPage at h
  by_cases hzero : s.freelist = 0
  · simp only [hzero, ne_eq, not_true_eq_false, if_false] at h
    exact (Prod.mk.inj h).2.symm
  · simp [hzero] at h

/-- **Pages that were handed out are full of fives**, whatever was in them and
whichever came twice: the fills write nothing but fives. -/
theorem allocPages_five {x : ℕ} (h : s.HandsOut l) (hn : n ≤ l.length)
    (hx : s.mem x = 5 ∨ ∃ pa ∈ l.take n, pa ≤ x ∧ x < pa + pgSize) :
    (s.allocPages n).2.mem x = 5 := by
  induction n generalizing s l with
  | zero =>
    rcases hx with hx | ⟨pa, hpa, -⟩
    · exact hx
    · exact absurd hpa List.not_mem_nil
  | succ n ih =>
    rcases l with - | ⟨pa, l⟩
    · exact absurd hn (Nat.not_succ_le_zero n)
    obtain ⟨hpa, hrest⟩ := h
    have hround : (s.allocPages (n + 1)).2 = (s.allocPage.2.allocPages n).2 := by
      rw [allocPages, show s.allocPage = (some pa, s.allocPage.2) from Prod.ext hpa rfl]
    rw [hround]
    apply ih hrest (Nat.le_of_succ_le_succ hn)
    rw [allocPage_mem hpa]
    by_cases hin : pa ≤ x ∧ x < pa + pgSize
    · exact .inl (Bytes.fill_of_mem 5 hin.1 hin.2)
    · rcases hx with hx | ⟨pa', hpa', hin'⟩
      · exact .inl ((if_neg hin).trans hx)
      · rcases List.mem_cons.mp hpa' with rfl | hpa'
        · exact absurd hin' hin
        · exact .inr ⟨pa', hpa', hin'⟩

/-- **`activate` takes the next seventeen pages.** -/
theorem activate_spec (kend : ℕ) {rb : Ringbuf} {name : List UInt8} {f : Fin 16 → ℕ} {book : ℕ}
    {rest : List ℕ} (hidle : rb.refcount = 0)
    (hname : ¬ (name.length > maxNameLen ∨ name.length = 0))
    (h : s.HandsOut (List.ofFn f ++ [book] ++ rest)) :
    ∃ s', s.activate kend rb name = .ok (s',
        { rb with
          nameBuf := nameBufOf name
          bufPages := fun i => some (f i)
          bookPage := some book }, .ok ()) ∧
      ∀ pa ∈ List.ofFn f ++ [book], ∀ x, pa ≤ x → x < pa + pgSize →
        s'.mem x = if book ≤ x ∧ x < book + 16 then 0 else 5 := by
  have hlen : 16 ≤ (List.ofFn f ++ [book] ++ rest).length := by
    simp only [List.length_append, List.length_ofFn, List.length_singleton]
    omega
  have htake : (List.ofFn f ++ [book] ++ rest).take 16 = List.ofFn f := by
    rw [List.append_assoc]
    exact List.take_left' (List.length_ofFn)
  have hdrop : (List.ofFn f ++ [book] ++ rest).drop 16 = book :: rest := by
    rw [List.append_assoc]
    exact List.drop_left' (List.length_ofFn)
  obtain ⟨hgot, hmore⟩ := allocPages_of_handsOut h hlen
  rw [htake] at hgot
  rw [hdrop] at hmore
  obtain ⟨hbook, -⟩ := hmore
  have hfive := fun x => allocPages_five (x := x) h hlen
  rw [htake] at hfive
  rcases hs₁ : s.allocPages 16 with ⟨got, s₁⟩
  rw [hs₁] at hgot hbook hfive
  obtain rfl : got = List.ofFn f := hgot
  rcases hs₂ : s₁.allocPage with ⟨o, s₂⟩
  have hmem := allocPage_mem hbook
  rw [hs₂] at hbook hmem
  obtain rfl : o = some book := hbook
  refine ⟨{ s₂ with mem := s₂.mem.store book 16 0 }, ?_, ?_⟩
  · unfold activate
    rw [if_neg (by omega), if_neg hname, hs₁]
    simp only [hs₂]
    rw [if_neg (by simp)]
    have hbufs : (fun i : Fin 16 => (List.ofFn f)[i.val]? <|> rb.bufPages i)
        = fun i => some (f i) := by
      funext i
      rw [List.getElem?_eq_getElem (by simp), List.getElem_ofFn]
      rfl
    rw [hbufs]
    rfl
  · intro pa hpa x h₁ h₂
    show (s₂.mem.store book 16 0) x = _
    unfold Bytes.store
    by_cases hin : book ≤ x ∧ x < book + 16
    · rw [if_pos hin, if_pos hin, Nat.zero_div]
      rfl
    · rw [if_neg hin, if_neg hin]
      show s₂.mem x = 5
      rw [show s₂.mem = s₁.mem.fill book pgSize 5 from hmem]
      by_cases hbk : book ≤ x ∧ x < book + pgSize
      · exact Bytes.fill_of_mem 5 hbk.1 hbk.2
      · rw [show s₁.mem.fill book pgSize 5 x = s₁.mem x from if_neg hbk]
        rcases List.mem_append.mp hpa with hpa | hpa
        · exact hfive x (.inr ⟨pa, hpa, h₁, h₂⟩)
        · obtain rfl := List.mem_singleton.mp hpa
          exact absurd ⟨h₁, h₂⟩ hbk

theorem Rep.handsOut (h : Rep s m) : s.HandsOut m.free := by
  generalize hl : m.free = l
  induction l generalizing s m with
  | nil => trivial
  | cons pa l ih =>
    have hspec := h.allocPage
    unfold Kmem.allocPage at hspec
    rw [hl] at hspec
    obtain ⟨s', hs', hrep, -⟩ := hspec
    refine ⟨by rw [hs'], ?_⟩
    rw [hs']
    exact ih hrep rfl

/-- And nothing else. -/
theorem Rep.prefix_of_handsOut (h : Rep s m) (hl : s.HandsOut l) : l <+: m.free := by
  induction l generalizing s m with
  | nil => exact List.nil_prefix
  | cons pa l ih =>
    obtain ⟨hpa, hrest⟩ := hl
    have hspec := h.allocPage
    unfold Kmem.allocPage at hspec
    rcases hf : m.free with - | ⟨a, free⟩
    · rw [hf] at hspec
      rw [show s.allocPage = (none, s) from hspec] at hpa
      cases hpa
    · rw [hf] at hspec
      obtain ⟨s', hs', hrep, -⟩ := hspec
      rw [hs'] at hpa hrest
      cases hpa
      exact List.cons_prefix_cons.mpr ⟨rfl, ih hrep hrest⟩

end Heap

/-! ### The allocator's calls, in the model and in memory -/

/-- A call of the allocator, or a write to a page that is not free, as the model
has it. -/
def KmemStep (m : Kmem) : AllocEv → Kmem → Prop
  | .kalloc r, m' => m.allocPage = some (r, m') ∨ m.allocPage = none ∧ r = 0 ∧ m' = m
  | .kfree pa, m' => m.kfree pa = .ok m' ∧ pa ∉ m.free
  | .write pa _, m' => m' = m ∧ pa % pgSize = 0 ∧ pa ∉ m.free

/-- The same in memory. -/
def HeapStep (kend : ℕ) (s : Heap) : AllocEv → Heap → Prop
  | .kalloc r, s' => s.kalloc = (r, s')
  | .kfree pa, s' => s.kfree kend pa = .ok s'
  | .write pa f, s' => s' = { s with
      mem := fun x => if pa ≤ x ∧ x < pa + pgSize then f x else s.mem x }

variable {m m' : Kmem} {s s' : Heap} {e : AllocEv} {tr : List AllocEv}

theorem KmemStep.kend (h : KmemStep m e m') : m'.kend = m.kend := by
  cases e with
  | kalloc r =>
    rcases h with h | ⟨-, -, rfl⟩
    · exact (Kmem.of_allocPage h).2
    · rfl
  | kfree pa => rw [(Kmem.of_kfree_ok h.1).2]
  | write pa f => rw [h.1]

namespace Heap

/-- **One call, in both.** -/
theorem Rep.step (h : s.Rep m) (hend : kernBase ≤ m.kend) (hm : KmemStep m e m')
    (hs : HeapStep m.kend s e s') : s'.Rep m' := by
  cases e with
  | kalloc r =>
    have hspec := h.kalloc
    rcases hm with hm | ⟨hm, -, rfl⟩
    · rw [hm] at hspec
      obtain ⟨s₁, hs₁, hrep, -⟩ := hspec
      obtain rfl : s₁ = s' := (Prod.mk.inj (hs₁.symm.trans hs)).2
      exact hrep
    · rw [hm] at hspec
      obtain rfl : s = s' := (Prod.mk.inj (Eq.trans (Eq.symm hspec) hs)).2
      exact h
  | kfree pa =>
    obtain ⟨hr, hnew⟩ := hm
    obtain ⟨hvalid, rfl⟩ := Kmem.of_kfree_ok hr
    obtain ⟨s₁, hs₁, hrep⟩ := h.kfree hend hvalid hnew
    obtain rfl : s₁ = s' := Except.ok.inj (hs₁.symm.trans hs)
    exact hrep
  | write pa f =>
    obtain ⟨rfl, hpa, hheld⟩ := hm
    obtain rfl : s' = _ := hs
    refine h.congr rfl fun a ha x h₁ h₂ => if_neg fun hin => ?_
    have hne : a ≠ pa := fun heq => hheld (heq ▸ ha)
    rcases page_disjoint (h.valid a ha).1 hpa hne h₁ h₂ with hx | hx
    · omega
    · omega

theorem Rep.exists_step (h : s.Rep m) (hend : kernBase ≤ m.kend) (hm : KmemStep m e m') :
    ∃ s', HeapStep m.kend s e s' := by
  cases e with
  | kalloc r =>
    have hspec := h.kalloc
    rcases hm with hm | ⟨hm, rfl, -⟩
    · rw [hm] at hspec
      obtain ⟨s', hs', -⟩ := hspec
      exact ⟨s', hs'⟩
    · rw [hm] at hspec
      exact ⟨s, hspec⟩
  | kfree pa =>
    obtain ⟨hr, hnew⟩ := hm
    obtain ⟨s', hs', -⟩ := h.kfree hend (Kmem.of_kfree_ok hr).1 hnew
    exact ⟨s', hs'⟩
  | write pa f => exact ⟨_, rfl⟩

/-- **Any calls, in both.** -/
theorem Rep.run (h : s.Rep m) (hend : kernBase ≤ m.kend) (hm : Run KmemStep m tr m')
    (hs : Run (HeapStep m.kend) s tr s') : s'.Rep m' ∧ m'.kend = m.kend := by
  induction hm generalizing s' with
  | nil =>
    obtain rfl := hs.of_nil
    exact ⟨h, rfl⟩
  | snoc _ hlast ih =>
    obtain ⟨s₁, hs₁, hstep⟩ := hs.of_snoc
    obtain ⟨hrep, hkend⟩ := ih hs₁
    rw [← hkend] at hend hstep
    exact ⟨hrep.step hend hlast hstep, hlast.kend.trans hkend⟩

theorem Rep.exists_run (h : s.Rep m) (hend : kernBase ≤ m.kend) (hm : Run KmemStep m tr m') :
    ∃ s', Run (HeapStep m.kend) s tr s' := by
  induction hm with
  | nil => exact ⟨s, .nil s⟩
  | snoc hinit hlast ih =>
    obtain ⟨s₁, hs₁⟩ := ih
    obtain ⟨hrep, hkend⟩ := h.run hend hinit hs₁
    obtain ⟨s', hs'⟩ := hrep.exists_step (hkend ▸ hend) hlast
    exact ⟨s', hs₁.snoc (hkend ▸ hs')⟩

end Heap

/-! ### The machine -/

open Kernel

/-- The kernel and its memory. -/
structure Machine where
  kernel : Kernel
  heap : Heap

/-- A system call with what it asks of the allocator and writes, or a store of `n`
bytes by a process. -/
inductive MachineEv
  | call (e : Ev) (tr : List AllocEv)
  | store (p : ProcIx) (va n v : ℕ)

namespace Machine

/-- Where process `p` can store at `va`. -/
def StoresAt (k : Kernel) (p : ProcIx) (va n a : ℕ) : Prop :=
  k.Running p ∧ va < maxVA ∧ (n = 1 ∨ n = 2 ∨ n = 4 ∨ n = 8) ∧ va % n = 0 ∧
    ∃ pte, leafAt (k.procs p).pagetable (va / pgSize) = some pte ∧ pte.perm.u = true ∧
      pte.perm.w = true ∧ a = pte.pa + va % pgSize

/-- A step of the machine.  The calls of the allocator are the same in the model
and in memory. -/
def Steps (M : Machine) : MachineEv → Machine → Prop
  | .call e tr, M' => M.kernel.Steps e M'.kernel ∧ Run KmemStep M.kernel.mem tr M'.kernel.mem ∧
      Run (HeapStep M.kernel.mem.kend) M.heap tr M'.heap
  | .store p va n v, M' => ∃ a, StoresAt M.kernel p va n a ∧
      M' = ⟨M.kernel, { M.heap with mem := M.heap.mem.store a n v }⟩

/-- The machine as the first process starts, whatever is in its memory. -/
structure Initial (M : Machine) : Prop where
  kernel : Kernel.Initial M.kernel
  kend : kernBase ≤ M.kernel.mem.kend
  heap : M.heap.Rep M.kernel.mem

/-- Steps that leave nothing half-done. -/
def CleanSteps (M : Machine) (e : MachineEv) (M' : Machine) : Prop :=
  M.Steps e M' ∧ match e with
    | .call e _ => M.kernel.OpenOk e
    | .store .. => True

/-- What holds between any two such steps. -/
structure Ok (M : Machine) : Prop where
  inv : Inv M.kernel
  noStray : NoStray M.kernel
  kend : kernBase ≤ M.kernel.mem.kend
  heap : M.heap.Rep M.kernel.mem

theorem Initial.ok {M : Machine} (h : Initial M) : Ok M :=
  ⟨h.kernel.inv.1, h.kernel.inv.2, h.kend, h.heap⟩

/-- Nobody can store to a free page. -/
theorem Ok.not_free {M : Machine} {p : ProcIx} {v : ℕ} {pte : Pte} (h : Ok M)
    (hleaf : leafAt (M.kernel.procs p).pagetable v = some pte) (hu : pte.perm.u = true) :
    pte.pa ∉ M.kernel.mem.free := by
  intro hfree
  rcases (h.inv.userPagesOk h.noStray).visible p v pte hleaf hu .free hfree with h | ⟨r, h, -⟩
  · cases h
  · cases h

/-- **The list in memory stays the one of the model.** -/
theorem Ok.step {M M' : Machine} {e : MachineEv} (h : Ok M) (hstep : CleanSteps M e M') :
    Ok M' := by
  obtain ⟨hstep, hopen⟩ := hstep
  cases e with
  | call e tr =>
    obtain ⟨hcall, hm, hs⟩ := hstep
    obtain ⟨hinv, htidy, -⟩ := (syscall_ends h.inv hcall.1).of_ok hcall.2
    obtain ⟨hrep, hkend⟩ := h.heap.run h.kend hm hs
    exact ⟨hinv, h.noStray.of_tidy (htidy hopen), hkend ▸ h.kend, hrep⟩
  | store p va n v =>
    obtain ⟨a, ⟨-, -, hn, hva, pte, hleaf, hu, -, rfl⟩, rfl⟩ := hstep
    refine ⟨h.inv, h.noStray, h.kend, h.heap.congr rfl fun b hb x h₁ h₂ => ?_⟩
    -- the bytes lie in a page, and the page is not free
    have hpa := h.inv.aligned_leaf (StrayOk.of_noStray (h.noStray p)) hleaf hu
    have hne : b ≠ pte.pa := fun heq => h.not_free hleaf hu (heq ▸ hb)
    have hin : va % pgSize + n ≤ pgSize := by
      unfold pgSize
      rcases hn with rfl | rfl | rfl | rfl <;> omega
    rcases page_disjoint (h.heap.valid b hb).1 hpa hne h₁ h₂ with hx | hx
    · exact Bytes.store_of_lt (by omega)
    · exact Bytes.store_of_le (by omega)

theorem Ok.run {M₀ M : Machine} {tr : List MachineEv} (h₀ : Initial M₀)
    (hrun : Run CleanSteps M₀ tr M) : Ok M :=
  hrun.invariant h₀.ok fun hok hstep => hok.step hstep

/-- A call of the kernel can be made in memory, too. -/
theorem exists_call {k k' : Kernel} {s : Heap} {e : Ev} {tr : List AllocEv} (hstep : k.Steps e k')
    (hend : kernBase ≤ k.mem.kend) (hs : s.Rep k.mem) (hm : Run KmemStep k.mem tr k'.mem) :
    ∃ s', Machine.Steps ⟨k, s⟩ (.call e tr) ⟨k', s'⟩ ∧ s'.Rep k'.mem := by
  obtain ⟨s', hs'⟩ := hs.exists_run hend hm
  exact ⟨s', ⟨hstep, hm, hs'⟩, (hs.run hend hm hs').1⟩

end Machine

/-! ### The open of a new ring buffer -/

/-- An event that touches pages of the page table only. -/
def OnTable (pt : PageTable) : AllocEv → Prop
  | .kalloc pa | .write pa _ => pa ∈ pt.pages
  | .kfree _ => False

/-- **A process opens a ring buffer that no process has**, up to `copyout`: ring
buffer `r` is activated, with the pages that memory says are free, and mapped,
for which page-table pages are allocated and written.  `k'` is the kernel after
the call, `s` the memory as `copyout` finds it. -/
structure FreshOpen (M : Machine) (p : ProcIx) (name : CStr) (addr : ℕ) (r : RingIx) (k' : Kernel)
    (s : Heap) : Prop where
  running : M.kernel.Running p
  fresh : M.kernel.findRingbufByName name.bytes = none
  slot : M.kernel.findFreeRingbuf = some r
  opened : ∃ l, M.heap.HandsOut l ∧
    { M.kernel with mem := { M.kernel.mem with free := l } }.ringbuf p name.bytes .open addr 0
      = .ok (k', .ok ())
  mapped : ∃ s₁ rb tr,
    M.heap.activate M.kernel.mem.kend (M.kernel.ringbufs r) name.bytes = .ok (s₁, rb, .ok ()) ∧
    Run (HeapStep M.kernel.mem.kend) s₁ tr s ∧ ∀ e ∈ tr, OnTable (k'.procs p).pagetable e

/-- What the first owner sees `j` bytes above the start of the book page: the book
page and then the buffer, twice. -/
def seen (k : Kernel) (p : ProcIx) (r : RingIx) (mem : Bytes) (j : ℕ) : Option UInt8 :=
  readAt (k.procs p).pagetable mem (intFromPtr ((k.ringbufs r).owners 0).vbook + j)

/-- What is in a ring buffer that is new: `read_done` and `write_done` are 0. -/
def newByte (j : ℕ) : UInt8 := if j < 16 then 0 else 5

/-- The memory after the whole call. -/
def memAfterOpen (k' : Kernel) (p : ProcIx) (r : RingIx) (s : Heap) (addr : ℕ) : Bytes :=
  (copyoutBytes (k'.procs p).pagetable s.mem addr
    (leBytes 8 (intFromPtr ((k'.ringbufs r).owners 0).vbuf))).1

namespace Kernel

variable {k k' : Kernel} {p : ProcIx} {r : RingIx} {l : List ℕ}

theorem Inv.of_prefix (h : Inv k) (hl : l <+: k.mem.free) :
    Inv { k with mem := { k.mem with free := l } } := by
  have hle : ({ k with mem := { k.mem with free := l } } : Kernel).pages ≤ k.pages := by
    unfold pages
    apply Finset.sum_le_sum
    intro j _
    cases j with
    | free =>
      rw [held_free, held_free]
      exact Multiset.coe_le.mpr hl.sublist.subperm
    | pipes => rw [held_pipes, held_pipes]
    | proc j => rw [held_proc, held_proc]
    | ring s => rw [held_ring, held_ring]
  exact ⟨Multiset.nodup_of_le hle h.nodup, fun pa hpa => h.valid pa (Multiset.mem_of_le hle hpa),
    h.trampoline, h.proc, h.ring, h.name, h.owner, h.owned, h.teardown⟩

/-- **The open of a new ring buffer takes the first seventeen pages.** -/
theorem open_new {name : List UInt8} {addr : ℕ} (h : Inv k)
    (hname : ¬ (name.length > maxNameLen ∨ name.length = 0)) (hzero : 0 ∉ name)
    (hfresh : k.findRingbufByName name = none) (hslot : k.findFreeRingbuf = some r)
    (hopen : k.openRingbuf p name addr = .ok (k', .ok ())) :
    ∃ f book, k.mem.free = List.ofFn f ++ [book] ++ k.mem.free.drop 17 ∧
      (k'.ringbufs r).Holds f book ∧ ((k'.ringbufs r).owners 0).proc = some p := by
  by_cases hearly : k.Early p name
  · obtain ⟨_, _, hr, -⟩ := open_early addr h hname hearly
    cases hr.symm.trans hopen
  obtain ⟨k₁, s, i, f, book, hready, -, hnew, -, -, -, -, hr⟩ := open_late addr h hname hzero hearly
  obtain ⟨hs, rfl, hsplit⟩ := hnew hfresh
  cases hslot.symm.trans hs
  obtain ⟨m, pt, top, rfl⟩ := of_attach_ok (hr.symm.trans hopen)
  refine ⟨f, book, hsplit, ?_⟩
  rw [opened_ring_self]
  refine ⟨⟨hready.holds.buf, hready.holds.book⟩, ?_⟩
  show (update (k₁.ringbufs r).owners 0 (newOwner p top) 0).proc = some p
  rw [update_self]
  rfl

/-- Where the bytes of an owner's region are. -/
theorem Attached.translate_eq {rb : Ringbuf} {o : Owner} {pt : PageTable} {b j : ℕ}
    (h : Attached rb o pt b) (hj : j < 33 * pgSize) :
    translate pt (b * pgSize + j) = (rb.slot (j / pgSize)).map (· + j % pgSize) := by
  have hpage : (b * pgSize + j) / pgSize = b + j / pgSize := by
    rw [Nat.add_comm, Nat.add_mul_div_right _ _ pgSize_pos, Nat.add_comm]
  have hoff : (b * pgSize + j) % pgSize = j % pgSize := by
    rw [Nat.add_comm, Nat.add_mul_mod_self_right]
  have hlt : b * pgSize + j < maxVA := by
    have := h.lt
    rw [lt_maxVA_iff, hpage]
    have : j / pgSize < 33 := Nat.div_lt_of_lt_mul (by rwa [Nat.mul_comm])
    omega
  have hleaf := h.leaf (j / pgSize) (Nat.div_lt_of_lt_mul (by rwa [Nat.mul_comm]))
  rcases hslot : rb.slot (j / pgSize) with - | pa
  · rw [hslot] at hleaf
    rcases ht : translate pt (b * pgSize + j) with - | a
    · rfl
    · obtain ⟨-, pte, hpte, -⟩ := translate_eq_some.mp ht
      rw [hpage, hleaf] at hpte
      cases hpte
  · rw [hslot] at hleaf
    rw [translate_eq_some.mpr ⟨hlt, _, hpage ▸ hleaf, rfl, rfl⟩, hoff]
    rfl

/-- What an owner sees lies in the pages of the ring buffer. -/
theorem Attached.readAt_eq {rb : Ringbuf} {o : Owner} {pt : PageTable} {b j : ℕ} (mem : Bytes)
    (h : Attached rb o pt b) (hj : j < 33 * pgSize) :
    readAt pt mem (intFromPtr o.vbook + j)
      = (rb.slot (j / pgSize)).map fun pa => mem (pa + j % pgSize) := by
  have hva : intFromPtr o.vbook = b * pgSize := by
    rw [h.vbook]
    rfl
  unfold readAt
  rw [hva, h.translate_eq hj, Option.map_map]
  rfl

end Kernel

namespace FreshOpen

variable {M : Machine} {p : ProcIx} {name : CStr} {addr : ℕ} {r : RingIx} {k' : Kernel} {s : Heap}

/-- Building the page table changes its pages only. -/
theorem mem_of_onTable {pt : PageTable} {tr : List AllocEv} {kend x : ℕ} {s s' : Heap}
    (hrun : Run (HeapStep kend) s tr s') (htable : ∀ e ∈ tr, OnTable pt e)
    (hx : ∀ pa ∈ pt.pages, ¬ (pa ≤ x ∧ x < pa + pgSize)) : s'.mem x = s.mem x := by
  induction hrun with
  | nil => rfl
  | @snoc s₁ s₂ tr e _ hlast ih =>
    rw [← ih fun e he => htable e (List.mem_append_left _ he)]
    have hon := htable e (List.mem_append_right _ List.mem_cons_self)
    cases e with
    | kalloc pa =>
      have hmem := hx pa hon
      have hkalloc : s₁.kalloc = (pa, s₂) := hlast
      unfold Heap.kalloc at hkalloc
      rcases halloc : s₁.allocPage with ⟨- | pa', s₃⟩
      · rw [halloc] at hkalloc
        obtain ⟨-, rfl⟩ := Prod.mk.inj hkalloc
        rw [Heap.allocPage_none halloc]
      · rw [halloc] at hkalloc
        obtain ⟨rfl, rfl⟩ := Prod.mk.inj hkalloc
        have hfill := Heap.allocPage_mem (show s₁.allocPage.1 = some pa' by rw [halloc])
        rw [halloc] at hfill
        show s₃.mem x = s₁.mem x
        rw [show s₃.mem = s₁.mem.fill pa' pgSize 5 from hfill]
        exact if_neg hmem
    | kfree pa => exact hon.elim
    | write pa f =>
      obtain rfl : s₂ = _ := hlast
      exact if_neg (hx pa hon)

/-- The pages of a ring buffer as `activate` leaves them. -/
def Wiped (mem : Bytes) (f : Fin 16 → ℕ) (book : ℕ) : Prop :=
  ∀ pa ∈ List.ofFn f ++ [book], ∀ x, pa ≤ x → x < pa + pgSize →
    mem x = if book ≤ x ∧ x < book + 16 then 0 else 5

/-- **What the open has done**, if the list of the model is in memory. -/
theorem wiped (h : FreshOpen M p name addr r k' s) (hinv : Inv M.kernel)
    (hrep : M.heap.Rep M.kernel.mem) :
    Inv k' ∧ ((k'.ringbufs r).owners 0).proc = some p ∧
      ∃ f book, (k'.ringbufs r).Holds f book ∧ Wiped s.mem f book := by
  obtain ⟨l, hl, hopen⟩ := h.opened
  obtain ⟨s₁, rb, tr, hact, hrun, htable⟩ := h.mapped
  have hinv' := hinv.of_prefix (hrep.prefix_of_handsOut hl)
  have hname : ¬ (name.bytes.length > maxNameLen ∨ name.bytes.length = 0) := by
    intro hbad
    unfold ringbuf at hopen
    rw [if_pos hbad] at hopen
    cases (Prod.mk.inj (Except.ok.inj hopen)).2
  unfold ringbuf at hopen
  rw [if_neg hname] at hopen
  have hafter := inv_open hinv' hname name.nonzero (p := p) h.running hopen
  obtain ⟨f, book, hsplit, hholds, hown⟩ := open_new hinv' hname name.nonzero h.fresh h.slot hopen
  -- the memory as `activate` leaves it
  rw [show l = _ from hsplit] at hl
  obtain ⟨s₂, hact', hbytes⟩ := Heap.activate_spec M.kernel.mem.kend
    (of_findFreeRingbuf h.slot) hname hl
  obtain ⟨rfl, -⟩ := Prod.mk.inj (Except.ok.inj (hact'.symm.trans hact))
  refine ⟨hafter, hown, f, book, hholds, fun pa hpa x h₁ h₂ => ?_⟩
  rw [← hbytes pa hpa x h₁ h₂]
  -- the pages of the page table are others
  apply mem_of_onTable hrun htable
  intro a ha hin
  rw [← hholds.pages_eq] at hpa
  have hheld := mem_held_of_usedFor (show k'.UsedFor a (.table p) from ha)
  have hring := mem_held_of_usedFor (show k'.UsedFor pa (.ring r) from hpa)
  have hne : pa ≠ a := by
    rintro rfl
    cases hafter.holder_eq hheld hring
  rcases page_disjoint (hafter.valid_ring hpa).1 (hafter.valid a (Inv.mem_pages hheld)).1 hne h₁ h₂
    with hx | hx
  · omega
  · omega

/-- **What the owner sees of pages in this state.** -/
theorem seen_of_wiped {f : Fin 16 → ℕ} {book j : ℕ} {mem : Bytes} (hinv : Inv k')
    (hown : ((k'.ringbufs r).owners 0).proc = some p) (hholds : (k'.ringbufs r).Holds f book)
    (hw : Wiped mem f book) (hj : j < 33 * pgSize) : seen k' p r mem j = some (newByte j) := by
  obtain ⟨-, b, hatt⟩ := hinv.owner r 0 p hown
  have hdiv : j / pgSize < 33 := Nat.div_lt_of_lt_mul (by rwa [Nat.mul_comm])
  obtain ⟨pa, hpa, hslot⟩ := hholds.slot_isSome (show j / pgSize ≤ 32 by omega)
  have hbook : book ∈ (k'.ringbufs r).pages := by
    rw [hholds.pages_eq]
    exact List.mem_append_right _ List.mem_cons_self
  have hmod := Nat.mod_lt j pgSize_pos
  have hbyte := hw pa (hholds.pages_eq ▸ hpa) _ (Nat.le_add_right pa _)
    (Nat.add_lt_add_left hmod pa)
  unfold seen
  rw [hatt.readAt_eq mem hj, hslot, Option.map_some, hbyte]
  congr 1
  unfold newByte
  -- the book page is the lowest and none of the others
  unfold Ringbuf.slot at hslot
  split_ifs at hslot with hzero
  · obtain rfl : book = pa := Option.some.inj (hholds.book.symm.trans hslot)
    rw [Nat.mod_eq_of_lt ((Nat.div_eq_zero_iff_lt pgSize_pos).mp hzero)]
    congr 1
    exact propext ⟨fun h => by omega, fun h => ⟨Nat.le_add_right _ _, by omega⟩⟩
  · have hnodup := hinv.nodup_ring r
    rw [hholds.pages_eq] at hnodup
    have hbuf : pa ∈ List.ofFn f := by
      rw [hholds.buf] at hslot
      exact Option.some.inj hslot ▸ List.mem_ofFn.mpr ⟨_, rfl⟩
    have hne : pa ≠ book := by
      rintro rfl
      exact List.disjoint_of_nodup_append hnodup hbuf List.mem_cons_self
    have hj16 : ¬ j < 16 := fun hlt =>
      hzero (Nat.div_eq_of_lt (lt_trans hlt (by decide)))
    have hpg : 16 ≤ pgSize := by decide
    rw [if_neg hj16, if_neg]
    intro hin
    rcases page_disjoint (hinv.valid_ring hpa).1 (hinv.valid_ring hbook).1 hne
      (Nat.le_add_right pa _) (Nat.add_lt_add_left hmod pa) with hx | hx
    · omega
    · omega

/-- Where `copyout` does not write, the memory is as it was. -/
theorem Wiped.memAfterOpen {f : Fin 16 → ℕ} {book : ℕ} (hw : Wiped s.mem f book)
    (hholds : (k'.ringbufs r).Holds f book)
    (hout : ∀ pa ∈ (k'.ringbufs r).pages, ∀ a ∈ reach (k'.procs p).pagetable addr 8,
      ¬ (pa ≤ a ∧ a < pa + pgSize)) : Wiped (memAfterOpen k' p r s addr) f book := by
  intro pa hpa x h₁ h₂
  rw [← hw pa hpa x h₁ h₂]
  unfold Xv6Zig.memAfterOpen
  rw [copyoutBytes_eq]
  apply applyUpdates_of_notMem
  intro hx
  obtain ⟨⟨a, c⟩, hac, rfl⟩ := List.mem_map.mp hx
  have hin : a ∈ reach (k'.procs p).pagetable addr 8 := by
    have := (List.of_mem_zip hac).1
    rwa [length_leBytes] at this
  exact hout pa (hholds.pages_eq ▸ hpa) a hin ⟨h₁, h₂⟩

end FreshOpen

/-- **A new ring buffer shows nothing of what was in memory**, in runs that leave
nothing half-done: in any two of them, whatever the machines had in their
memories and whatever was stored, the processes that open a new ring buffer see
the same, fives and a book of zeros.  The call itself can change that only if it
is told to put the address into the ring buffer. -/
theorem new_ring_same {M₀ M M₀' M' : Machine} {tr tr' : List MachineEv} {p p' : ProcIx}
    {name name' : CStr} {addr addr' : ℕ} {r r' : RingIx} {k k' : Kernel} {s s' : Heap}
    (h₀ : Machine.Initial M₀) (hrun : Run Machine.CleanSteps M₀ tr M)
    (hopen : FreshOpen M p name addr r k s)
    (h₀' : Machine.Initial M₀') (hrun' : Run Machine.CleanSteps M₀' tr' M')
    (hopen' : FreshOpen M' p' name' addr' r' k' s') :
    (∀ j < 33 * pgSize, seen k p r s.mem j = seen k' p' r' s'.mem j ∧
      seen k p r s.mem j = some (newByte j)) ∧
    ((∀ pa ∈ (k.ringbufs r).pages, ∀ a ∈ reach (k.procs p).pagetable addr 8,
      ¬ (pa ≤ a ∧ a < pa + pgSize)) →
        ∀ j < 33 * pgSize, seen k p r (memAfterOpen k p r s addr) j = some (newByte j)) := by
  have hok := Machine.Ok.run h₀ hrun
  have hok' := Machine.Ok.run h₀' hrun'
  obtain ⟨hinv, hown, f, book, hholds, hw⟩ := hopen.wiped hok.inv hok.heap
  obtain ⟨hinv', hown', f', book', hholds', hw'⟩ := hopen'.wiped hok'.inv hok'.heap
  refine ⟨fun j hj => ?_, fun hout j hj => ?_⟩
  · have hseen := FreshOpen.seen_of_wiped hinv hown hholds hw hj
    rw [FreshOpen.seen_of_wiped hinv' hown' hholds' hw' hj]
    exact ⟨hseen, hseen⟩
  · exact FreshOpen.seen_of_wiped hinv hown hholds (hw.memAfterOpen hholds hout) hj

/-! ### Two machines -/

theorem Heap.exists_rep (kend : ℕ) (free : List ℕ) (hend : kernBase ≤ kend)
    (hnodup : free.Nodup) (hvalid : ∀ pa ∈ free, ValidPage kend pa) :
    ∃ s : Heap, s.Rep ⟨kend, free⟩ := by
  induction free with
  | nil => exact ⟨⟨fun _ => 0, 0⟩, rfl, List.nodup_nil, fun a ha => nomatch ha⟩
  | cons pa free ih =>
    obtain ⟨hnew, hnodup⟩ := List.nodup_cons.mp hnodup
    obtain ⟨s, hs⟩ := ih hnodup fun a ha => hvalid a (List.mem_cons_of_mem _ ha)
    obtain ⟨s', -, hs'⟩ := hs.freePage hend (hvalid pa List.mem_cons_self) hnew
    exact ⟨s', hs'⟩

/-- The first process can open a new ring buffer if these pages are handed out. -/
def OpensNew (k : Kernel) (free : List ℕ) : Prop :=
  k.Running 0 ∧ k.findRingbufByName demoName.bytes = none ∧ k.findFreeRingbuf = some 0 ∧
    ({ k with mem := { k.mem with free := free } }.ringbuf 0 demoName.bytes .open 0 0).toOption.map
      (fun s : Kernel × Except RingbufError Unit => errorOf s.2) = some none

instance (k : Kernel) (free : List ℕ) : Decidable (OpensNew k free) :=
  inferInstanceAs (Decidable (_ ∧ _ ∧ _ ∧ _))

/-- It does, with a page table that has all its pages already. -/
theorem OpensNew.exists_open {k : Kernel} {s₀ : Heap} {f : Fin 16 → ℕ} {book : ℕ}
    {rest : List ℕ} (h : OpensNew k (List.ofFn f ++ [book] ++ rest))
    (hl : s₀.HandsOut (List.ofFn f ++ [book] ++ rest)) :
    ∃ k' s, { k with mem := { k.mem with free := List.ofFn f ++ [book] ++ rest } }.ringbuf 0
        demoName.bytes .open 0 0 = .ok (k', .ok ()) ∧
      FreshOpen ⟨k, s₀⟩ 0 demoName 0 0 k' s ∧ FreshOpen.Wiped s.mem f book := by
  obtain ⟨hrun, hfresh, hslot, hopen⟩ := h
  obtain ⟨⟨k', res⟩, hres, hok⟩ := Option.map_eq_some_iff.mp hopen
  have hopen := toOption_eq_some hres
  obtain rfl : res = .ok () := by
    rcases res with e | -
    · cases hok
    · rfl
  obtain ⟨s, hact, hw⟩ := Heap.activate_spec k.mem.kend
    (of_findFreeRingbuf hslot) (CStr.not_badLength (show demoName.bytes ≠ [] by decide)) hl
  refine ⟨k', s, hopen, ⟨hrun, hfresh, hslot, ⟨_, hl, hopen⟩, s, _, [], hact, .nil s, ?_⟩, hw⟩
  exact fun e he => absurd he List.not_mem_nil

/-- The first process can write its page `v`, which is at `pa`. -/
def WritesTo (k : Kernel) (v pa : ℕ) : Prop :=
  (leafAt (k.procs 0).pagetable v).map (fun pte => (pte.pa, pte.perm.u, pte.perm.w))
    = some (pa, true, true)

instance (k : Kernel) (v pa : ℕ) : Decidable (WritesTo k v pa) :=
  inferInstanceAs (Decidable (_ = _))

theorem WritesTo.storesAt {k : Kernel} {v pa n : ℕ} (h : WritesTo k v pa) (hrun : k.Running 0)
    (hv : v * pgSize < maxVA) (hn : n = 1 ∨ n = 8) : Machine.StoresAt k 0 (v * pgSize) n pa := by
  obtain ⟨pte, hleaf, hpte⟩ := Option.map_eq_some_iff.mp h
  obtain ⟨rfl, hperm⟩ := Prod.mk.inj hpte
  obtain ⟨hu, hw⟩ := Prod.mk.inj hperm
  refine ⟨hrun, hv, by omega, ?_, pte, ?_, hu, hw, ?_⟩
  · unfold pgSize
    rcases hn with rfl | rfl <;> omega
  · rwa [Nat.mul_div_cancel _ pgSize_pos]
  · rw [Nat.mul_mod_left, Nat.add_zero]

/-- The pages of the machine with forty pages. -/
def demoPage (i : ℕ) : ℕ := 0x80200000 + i * pgSize

/-- The first pages free when it starts. -/
def firstPages (i : Fin 16) : ℕ := demoPage (7 + i)

def restPages : List ℕ := (List.range' 24 16).map demoPage

theorem demo_opensNew : ∃ k, demo = some k ∧
    k.mem = ⟨0x80100000, List.ofFn firstPages ++ [demoPage 23] ++ restPages⟩ ∧
    OpensNew k (List.ofFn firstPages ++ [demoPage 23] ++ restPages) ∧ WritesTo k 0 (demoPage 4) :=
  exists_of_decide (by decide +kernel)

/-- A machine that starts, and the same machine with something stored. -/
theorem new_ring_same_stored : ∃ M₀ M k s k' s', Machine.Initial M₀ ∧
    Run Machine.CleanSteps M₀ [.store 0 0 1 42] M ∧ FreshOpen M₀ 0 demoName 0 0 k s ∧
    FreshOpen M 0 demoName 0 0 k' s' ∧
    ∀ j < 33 * pgSize, seen k 0 0 s.mem j = seen k' 0 0 s'.mem j ∧
      seen k 0 0 s.mem j = some (newByte j) := by
  obtain ⟨k₀, hk₀, hmem, hopens, hwrites⟩ := demo_opensNew
  obtain ⟨s₀, hs₀⟩ := Heap.exists_rep 0x80100000
    (List.ofFn firstPages ++ [demoPage 23] ++ restPages) (by decide) (by decide) (by decide)
  have hrep : s₀.Rep k₀.mem := hmem ▸ hs₀
  have h₀ : Machine.Initial ⟨k₀, s₀⟩ := ⟨demo_initial hk₀, hmem ▸ (by decide), hrep⟩
  let M : Machine := ⟨k₀, { s₀ with mem := s₀.mem.store (demoPage 4) 1 42 }⟩
  have hrun : Run Machine.CleanSteps ⟨k₀, s₀⟩ [.store 0 0 1 42] M :=
    Run.single ⟨⟨_, hwrites.storesAt hopens.1 (by decide) (.inl rfl), rfl⟩, trivial⟩
  have hrep' : M.heap.Rep k₀.mem := (Machine.Ok.run h₀ hrun).heap
  obtain ⟨k, s, -, hopen, -⟩ := hopens.exists_open hs₀.handsOut
  obtain ⟨k', s', -, hopen', -⟩ := hopens.exists_open (hmem ▸ hrep').handsOut
  exact ⟨_, M, k, s, k', s', h₀, hrun, hopen, hopen',
    (new_ring_same h₀ (.nil _) hopen h₀ hrun hopen').1⟩

/-! ### A store to the free list -/

/-- **A list in which one link was overwritten** is handed out up to there, and then
the page the link names, whatever it is. -/
theorem Chain.handsOut_store {mem : Bytes} {l rest : List ℕ} {p a q : ℕ}
    (h : Chain mem p (l ++ a :: rest)) (hnodup : (l ++ a :: rest).Nodup)
    (hpages : ∀ b ∈ l ++ a :: rest, b % pgSize = 0) (hq : q < 256 ^ 8) (hne : q ≠ 0) :
    (⟨mem.store a 8 q, p⟩ : Heap).HandsOut (l ++ [a, q]) := by
  induction l generalizing mem p with
  | nil =>
    obtain ⟨rfl, hp, -⟩ := h
    have halloc : (⟨mem.store p 8 q, p⟩ : Heap).allocPage
        = (some p, ⟨(mem.store p 8 q).fill p pgSize 5, q⟩) := by
      simp [Heap.allocPage, hp, Bytes.load_store mem p hq]
    refine ⟨by rw [halloc], ?_, trivial⟩
    rw [halloc]
    simp [Heap.allocPage, hne]
  | cons b l ih =>
    obtain ⟨rfl, hp, hrest⟩ := h
    obtain ⟨hnot, hnodup⟩ := List.nodup_cons.mp hnodup
    have hother : ∀ c ∈ l ++ a :: rest, ∀ x, c ≤ x → x < c + pgSize → x < p ∨ p + pgSize ≤ x := by
      intro c hc x h₁ h₂
      exact page_disjoint (hpages c (List.mem_cons_of_mem _ hc)) (hpages p List.mem_cons_self)
        (fun heq => hnot (heq ▸ hc)) h₁ h₂
    have ha : a ∈ l ++ a :: rest := List.mem_append_right _ List.mem_cons_self
    -- the store and the fill are in different pages
    have halloc : (⟨mem.store a 8 q, p⟩ : Heap).allocPage
        = (some p, ⟨(mem.fill p pgSize 5).store a 8 q, mem.load p 8⟩) := by
      have hlink : (mem.store a 8 q).load p 8 = mem.load p 8 := by
        apply Bytes.load_congr
        intro x h₁ h₂
        refine if_neg fun hin => ?_
        rcases hother a ha x hin.1 (by unfold pgSize; omega) with hx | hx
        · omega
        · unfold pgSize at hx
          omega
      have hmem : (mem.store a 8 q).fill p pgSize 5 = (mem.fill p pgSize 5).store a 8 q := by
        funext x
        show (if p ≤ x ∧ x < p + pgSize then 5 else if a ≤ x ∧ x < a + 8 then _ else mem x)
          = if a ≤ x ∧ x < a + 8 then _ else if p ≤ x ∧ x < p + pgSize then 5 else mem x
        by_cases hin : a ≤ x ∧ x < a + 8
        · have hout := hother a ha x hin.1 (by unfold pgSize; omega)
          rw [if_neg (by omega), if_pos hin, if_pos hin]
        · rw [if_neg hin, if_neg hin]
      simp [Heap.allocPage, hp, hlink, hmem]
    refine ⟨by rw [halloc], ?_⟩
    rw [halloc]
    refine ih (hrest.congr fun c hc x h₁ h₂ => ?_) hnodup
      fun c hc => hpages c (List.mem_cons_of_mem _ hc)
    rcases hother c hc x h₁ h₂ with hx | hx
    · exact Bytes.fill_of_lt 5 hx
    · exact Bytes.fill_of_le 5 hx

/-- Pages taken and given back, in the model. -/
theorem run_kalloc (kend : ℕ) (l rest : List ℕ) :
    Run KmemStep ⟨kend, l ++ rest⟩ (l.map .kalloc) ⟨kend, rest⟩ := by
  induction l with
  | nil => exact .nil _
  | cons pa l ih =>
    have hone : KmemStep ⟨kend, pa :: l ++ rest⟩ (.kalloc pa) ⟨kend, l ++ rest⟩ := .inl rfl
    exact (Run.single hone).append ih

theorem run_kfree {kend : ℕ} {l rest : List ℕ} (hnodup : (l ++ rest).Nodup)
    (hvalid : ∀ pa ∈ l, ValidPage kend pa) :
    Run KmemStep ⟨kend, rest⟩ (l.map .kfree) ⟨kend, l.reverse ++ rest⟩ := by
  induction l generalizing rest with
  | nil => exact .nil _
  | cons pa l ih =>
    have hnot : pa ∉ rest := fun hin =>
      (List.nodup_cons.mp hnodup).1 (List.mem_append_right _ hin)
    have hone : KmemStep ⟨kend, rest⟩ (.kfree pa) ⟨kend, pa :: rest⟩ :=
      ⟨Kmem.kfree_ok _ (hvalid pa List.mem_cons_self), hnot⟩
    have hrest : Run KmemStep ⟨kend, pa :: rest⟩ (l.map .kfree) ⟨kend, l.reverse ++ pa :: rest⟩ :=
      ih (List.perm_middle.nodup_iff.mpr hnodup) fun b hb => hvalid b (List.mem_cons_of_mem _ hb)
    rw [List.reverse_cons, List.append_assoc]
    exact (Run.single hone).append hrest

/-- What the first process sees at `j` is at `a`. -/
def SeesAt (k : Kernel) (free : List ℕ) (j a : ℕ) : Prop :=
  ({ k with mem := { k.mem with free := free } }.ringbuf 0 demoName.bytes .open 0 0).toOption.map
    (fun s : Kernel × Except RingbufError Unit =>
      translate (s.1.procs 0).pagetable (intFromPtr ((s.1.ringbufs 0).owners 0).vbook + j))
    = some (some a)

instance (k : Kernel) (free : List ℕ) (j a : ℕ) : Decidable (SeesAt k free j a) :=
  inferInstanceAs (Decidable (_ = _))

/-- The pages free after a failed open. -/
def freedPages (i : Fin 16) : ℕ := demoPage (23 - i)

/-- An open that cannot hand out the address. -/
def failingOpen : Ev := .ringbuf 0 (some demoName) 1 badAddr 0

theorem demo_failingOpen : ∃ k₀, demo = some k₀ ∧
    k₀.mem = ⟨0x80100000, List.ofFn firstPages ++ [demoPage 23] ++ restPages⟩ ∧
    ∃ k, k₀.next failingOpen = some k ∧
      k.mem = ⟨0x80100000, List.ofFn freedPages ++ [demoPage 7] ++ restPages⟩ ∧
      OpensNew k (List.ofFn freedPages ++ [demoPage 7] ++ restPages) ∧
      OpensNew k (List.ofFn freedPages ++ [demoPage 22] ++ []) ∧
      SeesAt k (List.ofFn freedPages ++ [demoPage 22] ++ []) (15 * pgSize) (demoPage 22) ∧
      WritesTo k (trapframeVpn - 3) (demoPage 8) := by
  obtain ⟨k₀, hk₀, hmem, -⟩ := demo_opensNew
  have hnext : ∃ k, (demo.bind fun k₀ => k₀.next failingOpen) = some k ∧
      k.mem = ⟨0x80100000, List.ofFn freedPages ++ [demoPage 7] ++ restPages⟩ ∧
      OpensNew k (List.ofFn freedPages ++ [demoPage 7] ++ restPages) ∧
      OpensNew k (List.ofFn freedPages ++ [demoPage 22] ++ []) ∧
      SeesAt k (List.ofFn freedPages ++ [demoPage 22] ++ []) (15 * pgSize) (demoPage 22) ∧
      WritesTo k (trapframeVpn - 3) (demoPage 8) := exists_of_decide (by decide +kernel)
  rw [hk₀] at hnext
  exact ⟨k₀, hk₀, hmem, hnext⟩

/-- **A store to a page that a failed open left mapped shows in the next ring
buffer.**  The process links the sixteenth free page to the second, so that the
second is handed out again, as the book page. -/
theorem stores_show : ∃ M₀ tr M M' k s k' s', Machine.Initial M₀ ∧
    Run Machine.Steps M₀ [.call failingOpen tr] M ∧
    Run Machine.Steps M [.store 0 ((trapframeVpn - 3) * pgSize) 8 (demoPage 22)] M' ∧
    FreshOpen M 0 demoName 0 0 k s ∧ FreshOpen M' 0 demoName 0 0 k' s' ∧
    seen k 0 0 s.mem (15 * pgSize) = some 5 ∧ seen k' 0 0 s'.mem (15 * pgSize) = some 0 := by
  obtain ⟨k₀, hk₀, hmem₀, k, hnext, hmem, hopens, hopens', hsees, hwrites⟩ := demo_failingOpen
  obtain ⟨s₀, hs₀⟩ := Heap.exists_rep 0x80100000
    (List.ofFn firstPages ++ [demoPage 23] ++ restPages) (by decide) (by decide) (by decide)
  have hinit := demo_initial hk₀
  have h₀ : Machine.Initial ⟨k₀, s₀⟩ := ⟨hinit, hmem₀ ▸ (by decide), hmem₀ ▸ hs₀⟩
  have hstep := steps_of_next hnext
  -- seventeen pages are taken and given back
  have htr : Run KmemStep ⟨0x80100000, List.ofFn firstPages ++ [demoPage 23] ++ restPages⟩
      ((List.ofFn firstPages ++ [demoPage 23]).map .kalloc ++
        (List.ofFn firstPages ++ [demoPage 23]).map .kfree)
      ⟨0x80100000, List.ofFn freedPages ++ [demoPage 7] ++ restPages⟩ :=
    (run_kalloc _ _ _).append (run_kfree (by decide) (by decide))
  rw [← hmem₀, ← hmem] at htr
  obtain ⟨s₁, hcall, hrep⟩ := Machine.exists_call hstep h₀.kend h₀.heap htr
  rw [hmem] at hrep
  let s₂ : Heap := { s₁ with mem := s₁.mem.store (demoPage 8) 8 (demoPage 22) }
  have hstore : Run Machine.Steps ⟨k, s₁⟩
      [.store 0 ((trapframeVpn - 3) * pgSize) 8 (demoPage 22)] ⟨k, s₂⟩ :=
    Run.single ⟨_, hwrites.storesAt hopens.1 (by decide) (.inr rfl), rfl⟩
  -- the free list after it
  have hlinks : s₂.HandsOut (List.ofFn freedPages ++ [demoPage 22] ++ []) := by
    have hsplit : List.ofFn freedPages ++ [demoPage 7] ++ restPages
        = (List.ofFn freedPages).take 15 ++ demoPage 8 :: (demoPage 7 :: restPages) := by decide
    have hchain := hrep.chain
    rw [show (Kmem.mk 0x80100000 (List.ofFn freedPages ++ [demoPage 7] ++ restPages)).free
      = _ from hsplit] at hchain
    exact hchain.handsOut_store (q := demoPage 22) (by decide) (by decide) (by decide) (by decide)
  obtain ⟨k₁, t₁, -, hopen₁, -⟩ := hopens.exists_open hrep.handsOut
  obtain ⟨k₂, t₂, hk₂, hopen₂, hwiped⟩ := hopens'.exists_open hlinks
  refine ⟨_, _, _, _, k₁, t₁, k₂, t₂, h₀, Run.single hcall, hstore, hopen₁, hopen₂, ?_, ?_⟩
  · have hinv : Inv k := Reachable.inv ⟨k₀, _, hinit, Run.single hstep⟩
    obtain ⟨hinv₁, hown, f, book, hholds, hw⟩ := hopen₁.wiped hinv (hmem ▸ hrep)
    exact FreshOpen.seen_of_wiped hinv₁ hown hholds hw (by decide)
  · have hat : translate (k₂.procs 0).pagetable
        (intFromPtr ((k₂.ringbufs 0).owners 0).vbook + 15 * pgSize) = some (demoPage 22) := by
      unfold SeesAt at hsees
      rw [hk₂] at hsees
      exact Option.some.inj hsees
    unfold seen readAt
    rw [hat, Option.map_some,
      hwiped (demoPage 22) (by decide) (demoPage 22) le_rfl (by decide)]
    rfl

end Xv6Zig
