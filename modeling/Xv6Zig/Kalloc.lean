/-
Xv6Zig/Kalloc.lean

The page allocator (`kernel/kalloc.zig`) and the ways the kernel stops.

The free list is the list of the addresses on it, `free`, first the page
`allocPage` hands out next.  `kend` is the linker's `end`: `freePage` takes
page-aligned addresses in `[kend, PHYSTOP)` and refuses others.  What pages
contain is not modelled.
-/
import Mathlib.Data.Multiset.AddSub
import Xv6Zig.Lib.Outcome
import Xv6Zig.Param

namespace Xv6Zig

/-- The panics of the memory, process and ring-buffer code. -/
inductive Panic
  /-- "walk" -/
  | walk
  /-- "mappages: size" -/
  | mappagesSize
  /-- "mappages: remap" -/
  | mappagesRemap
  /-- "uvmunmap: not aligned" -/
  | uvmunmapNotAligned
  /-- "uvmunmap: walk" -/
  | uvmunmapWalk
  /-- "uvmunmap: not mapped" -/
  | uvmunmapNotMapped
  /-- "uvmunmap: not a leaf" -/
  | uvmunmapNotLeaf
  /-- "freewalk: leaf" -/
  | freewalkLeaf
  /-- "uvmcopy: pte should exist" -/
  | uvmcopyPte
  /-- "uvmcopy: page not present" -/
  | uvmcopyPage
  /-- "uvmclear" -/
  | uvmclear
  /-- "loadseg: address should exist" -/
  | loadseg
  /-- "kfree error" -/
  | kfree
  /-- "init exiting" -/
  | initExiting
  /-- "filedup" -/
  | filedup
  /-- "fileclose" -/
  | fileclose
  /-- "failed to free page" -/
  | failedToFreePage
  /-- "deactivate: book page is already null" -/
  | bookPageAlreadyNull
  /-- "ringbuf has owners" -/
  | ringbufHasOwners
  /-- "disowning a ringbuf without a vbuf" -/
  | disownWithoutVbuf
  /-- "disowning a ringbuf without a vbook" -/
  | disownWithoutVbook
  /-- "orphaned ringbuf found by name" -/
  | orphanedRingbuf
  /-- "free ringbuf should not have any owners" -/
  | freeRingbufHasOwners
  /-- "buf page is null" -/
  | bufPageNull
  /-- "book page is null" -/
  | bookPageNull
  /-- `@enumFromInt` of a number that is no `Op`. -/
  | illegalOp
  deriving DecidableEq, Repr

/-- The panics with which a page table that is not what its owner takes it for
stops the kernel when it is torn down. -/
def Panic.Teardown (e : Panic) : Prop :=
  e = .uvmunmapNotAligned ∨ e = .uvmunmapWalk ∨ e = .uvmunmapNotMapped ∨ e = .freewalkLeaf ∨
    e = .kfree

instance (e : Panic) : Decidable e.Teardown :=
  inferInstanceAs (Decidable (_ ∨ _ ∨ _ ∨ _ ∨ _))

/-- The panics of `file.c`. -/
def Panic.OfFiles (e : Panic) : Prop :=
  e = .filedup ∨ e = .fileclose

instance (e : Panic) : Decidable e.OfFiles :=
  inferInstanceAs (Decidable (_ ∨ _))

/-- The panics of code that builds page tables. -/
def Panic.Building (e : Panic) : Prop :=
  ¬ e.Teardown ∧ ¬ e.OfFiles

instance (e : Panic) : Decidable e.Building :=
  inferInstanceAs (Decidable (_ ∧ _))

/-- The errors of `freePage`. -/
inductive PageError
  | addressNotPageAligned
  | addressTooLow
  | addressTooHigh
  deriving DecidableEq, Repr

/-- The allocator's globals. -/
structure Kmem where
  kend : ℕ
  free : List ℕ
  deriving DecidableEq, Repr

/-- What `freePage` takes. -/
def ValidPage (kend pa : ℕ) : Prop :=
  pa % pgSize = 0 ∧ kend ≤ pa ∧ pa < physTop

instance (kend pa : ℕ) : Decidable (ValidPage kend pa) :=
  inferInstanceAs (Decidable (_ ∧ _ ∧ _))

namespace Kmem

def freePage (m : Kmem) (pa : ℕ) : Except PageError Kmem :=
  if pa % pgSize ≠ 0 then .error .addressNotPageAligned
  else if pa < m.kend then .error .addressTooLow
  else if physTop ≤ pa then .error .addressTooHigh
  else .ok { m with free := pa :: m.free }

def kfree (m : Kmem) (pa : ℕ) : Except Panic Kmem :=
  match m.freePage pa with
  | .ok m => .ok m
  | .error _ => .error .kfree

/-- `allocPage`, and `kalloc` that wraps it. -/
def allocPage (m : Kmem) : Option (ℕ × Kmem) :=
  match m.free with
  | [] => none
  | pa :: free => some (pa, { m with free := free })

variable {m m' : Kmem} {pa : ℕ}

theorem freePage_ok (m : Kmem) (h : ValidPage m.kend pa) :
    m.freePage pa = .ok { m with free := pa :: m.free } := by
  obtain ⟨h₁, h₂, h₃⟩ := h
  unfold freePage
  rw [if_neg (not_not.mpr h₁), if_neg (by omega), if_neg (by omega)]

theorem of_freePage_ok (h : m.freePage pa = .ok m') :
    ValidPage m.kend pa ∧ m' = { m with free := pa :: m.free } := by
  unfold freePage at h
  split_ifs at h with h₁ h₂ h₃
  exact ⟨⟨by omega, by omega, by omega⟩, (Except.ok.inj h).symm⟩

theorem kfree_ok (m : Kmem) (h : ValidPage m.kend pa) :
    m.kfree pa = .ok { m with free := pa :: m.free } := by
  unfold kfree
  rw [freePage_ok m h]

theorem of_kfree_ok (h : m.kfree pa = .ok m') :
    ValidPage m.kend pa ∧ m' = { m with free := pa :: m.free } := by
  unfold kfree at h
  rcases hf : m.freePage pa with e | m₁
  · rw [hf] at h
    cases h
  · rw [hf] at h
    cases h
    exact of_freePage_ok hf

theorem of_allocPage (h : m.allocPage = some (pa, m')) :
    m.free = pa :: m'.free ∧ m'.kend = m.kend := by
  unfold allocPage at h
  rcases hf : m.free with - | ⟨pa', free⟩
  · rw [hf] at h
    cases h
  · rw [hf] at h
    cases h
    exact ⟨rfl, rfl⟩

end Kmem

end Xv6Zig
