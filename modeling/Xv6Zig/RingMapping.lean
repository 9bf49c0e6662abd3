/-
Xv6Zig/RingMapping.lean

The magic mapping of a ring buffer (`kernel/ringbuf.zig`).

An open maps the sixteen buffer pages twice and then the book page, each one page
below the one before, from the process's own `top_free_uvm_pg` down.  So the pages
stand in reverse, at addresses that differ from owner to owner; `slot` says which page
is how far above the book page, and it is the same for all owners.  Everything about
addresses follows from that: the second copy lies `BUF_CAPACITY` above the first, and
two owners see one byte at the same distance from their bases.

Main result: `magic_mapping`.
-/
import Xv6Zig.RingContents
import Xv6Zig.UserRingbuf

namespace Xv6Zig

open Lib

namespace Ringbuf

variable {rb : Ringbuf} {f : Fin 16 → ℕ} {book : ℕ}

/-- The buffer page with the byte `x` of the first copy. -/
def pageOf (x : ℕ) : Fin 16 := ⟨15 - x / pgSize, Nat.lt_succ_of_le (Nat.sub_le 15 _)⟩

/-- The page of a byte of the buffer, in either copy. -/
theorem slot_of_lt {x : ℕ} (rb : Ringbuf) (hx : x < bufCapacity) :
    rb.slot ((pgSize + x) / pgSize) = rb.bufPages (pageOf x) ∧
      rb.slot ((pgSize + (bufCapacity + x)) / pgSize) = rb.bufPages (pageOf x) := by
  have hq : x / pgSize < 16 := Nat.div_lt_of_lt_mul (by rwa [Nat.mul_comm])
  have hfirst : (pgSize + x) / pgSize = x / pgSize + 1 := by
    rw [Nat.add_comm, Nat.add_div_right _ pgSize_pos]
  have hsecond : (pgSize + (bufCapacity + x)) / pgSize = x / pgSize + 17 := by
    rw [show pgSize + (bufCapacity + x) = x + 17 * pgSize by unfold bufCapacity ringbufSize; ring,
      Nat.add_mul_div_right _ _ pgSize_pos]
  rw [hfirst, hsecond]
  unfold slot pageOf
  rw [if_neg (Nat.succ_ne_zero _), if_neg (Nat.succ_ne_zero _)]
  constructor
  · congr 2
    generalize x / pgSize = q at hq
    omega
  · congr 2
    generalize x / pgSize = q at hq
    omega

end Ringbuf

namespace Kernel

variable {k k' : Kernel} {p : ProcIx} {r : RingIx} {i : Fin 2} {name : CStr} {vaddr b : ℕ}

/-- **The buffer twice in a row, and the book below**, from `base` on. -/
structure Magic (pt : PageTable) (rb : Ringbuf) (base : ℕ) : Prop where
  /-- both copies are of the same bytes -/
  double : ∀ x < bufCapacity, ∃ a, translate pt (base + x) = some a ∧
    translate pt (base + bufCapacity + x) = some a
  distinct : ∀ x < bufCapacity, ∀ y < bufCapacity,
    translate pt (base + x) = translate pt (base + y) → x = y
  /-- the bytes are those of the buffer pages -/
  inside : ∀ x < bufCapacity, ∃ i pa, rb.bufPages i = some pa ∧
    translate pt (base + x) = some (pa + x % pgSize)
  covers : ∀ i, ∀ o < pgSize, ∃ pa, rb.bufPages i = some pa ∧
    ∃ x < bufCapacity, translate pt (base + x) = some (pa + o)
  book : ∃ pa, rb.bookPage = some pa ∧
    ∀ o < pgSize, translate pt (base - pgSize + o) = some (pa + o)
  perm : ∀ j < 33, ∃ pte, leafAt pt ((base - pgSize) / pgSize + j) = some pte ∧
    pte.perm.r = true ∧ pte.perm.w = true ∧ pte.perm.u = true

namespace Attached

variable {rb : Ringbuf} {o : Owner} {pt : PageTable} {f : Fin 16 → ℕ} {book : ℕ}

/-- A byte of the first copy and of the second. -/
theorem translate_buf (h : Attached rb o pt b) (hholds : rb.Holds f book) {x : ℕ}
    (hx : x < bufCapacity) :
    translate pt ((b + 1) * pgSize + x) = some (f (Ringbuf.pageOf x) + x % pgSize) ∧
      translate pt ((b + 1) * pgSize + bufCapacity + x)
        = some (f (Ringbuf.pageOf x) + x % pgSize) := by
  obtain ⟨hfirst, hsecond⟩ := rb.slot_of_lt hx
  have hbuf : rb.bufPages (Ringbuf.pageOf x) = some (f (Ringbuf.pageOf x)) := by rw [hholds.buf]
  have hlt : bufCapacity = 16 * pgSize := rfl
  constructor
  · rw [show (b + 1) * pgSize + x = b * pgSize + (pgSize + x) by ring,
      h.translate_eq (by omega), hfirst, hbuf, Nat.add_mod_left]
    rfl
  · rw [show (b + 1) * pgSize + bufCapacity + x = b * pgSize + (pgSize + (bufCapacity + x)) by ring,
      h.translate_eq (by omega), hsecond, hbuf, Nat.add_mod_left, hlt, Nat.mul_add_mod_self_right]
    rfl

theorem magic (h : Attached rb o pt b) (hholds : rb.Holds f book) (hf : Function.Injective f)
    (haligned : ∀ i, f i % pgSize = 0) : Magic pt rb ((b + 1) * pgSize) := by
  have hbase : (b + 1) * pgSize - pgSize = b * pgSize := by
    rw [Nat.succ_mul, Nat.add_sub_cancel]
  constructor
  · intro x hx
    exact ⟨_, h.translate_buf hholds hx⟩
  · intro x hx y hy heq
    rw [(h.translate_buf hholds hx).1, (h.translate_buf hholds hy).1] at heq
    have hsum := Option.some.inj heq
    -- the offsets agree, so the pages do
    have hoff : x % pgSize = y % pgSize := by
      have := congrArg (· % pgSize) hsum
      simpa [Nat.add_mod, haligned] using this
    have hpage : Ringbuf.pageOf x = Ringbuf.pageOf y := hf (by omega)
    have hq : 15 - x / pgSize = 15 - y / pgSize := congrArg Fin.val hpage
    unfold bufCapacity ringbufSize pgSize at hx hy
    unfold pgSize at hoff hq
    omega
  · intro x hx
    refine ⟨Ringbuf.pageOf x, f (Ringbuf.pageOf x), ?_, (h.translate_buf hholds hx).1⟩
    rw [hholds.buf]
  · intro i o ho
    have hx : (15 - i) * pgSize + o < bufCapacity := by
      unfold bufCapacity ringbufSize
      unfold pgSize at ho ⊢
      omega
    have hpage : Ringbuf.pageOf ((15 - i) * pgSize + o) = i := by
      apply Fin.ext
      show 15 - ((15 - i) * pgSize + o) / pgSize = i
      unfold pgSize at ho ⊢
      omega
    refine ⟨f i, by rw [hholds.buf], (15 - i) * pgSize + o, hx, ?_⟩
    rw [(h.translate_buf hholds hx).1, hpage, Nat.mul_add_mod_self_right, Nat.mod_eq_of_lt ho]
  · refine ⟨book, hholds.book, fun o ho => ?_⟩
    rw [hbase, h.translate_eq (by omega), Nat.div_eq_of_lt ho, Nat.mod_eq_of_lt ho,
      show rb.slot 0 = some book from hholds.book]
    rfl
  · intro j hj
    obtain ⟨pa, -, hslot⟩ := hholds.slot_isSome (Nat.le_of_lt_succ hj)
    refine ⟨⟨pa, ringPerm⟩, ?_, rfl, rfl, rfl⟩
    rw [hbase, Nat.mul_div_cancel _ pgSize_pos, h.leaf j hj, hslot]
    rfl

end Attached

theorem intFromPtr_some (x : ℕ) : intFromPtr (some x) = x := rfl

/-- The pages of a ring buffer are different pages. -/
theorem Inv.pages_ring (h : Inv k) {f : Fin 16 → ℕ} {book : ℕ}
    (hholds : (k.ringbufs r).Holds f book) :
    Function.Injective f ∧ ∀ i, f i % pgSize = 0 := by
  have hpages := hholds.pages_eq
  have hnodup := h.nodup_ring r
  constructor
  · rw [hpages] at hnodup
    exact List.nodup_ofFn.mp (List.nodup_append.mp hnodup).1
  · intro i
    have hmem : f i ∈ (k.ringbufs r).pages := by
      rw [hpages]
      exact List.mem_append_left _ (List.mem_ofFn.mpr ⟨i, rfl⟩)
    exact (h.valid_ring hmem).1

/-- **Every owner has the magic mapping.** -/
theorem Inv.magic (h : Inv k) (howner : ((k.ringbufs r).owners i).proc = some p) :
    Magic (k.procs p).pagetable (k.ringbufs r)
      (intFromPtr ((k.ringbufs r).owners i).vbuf) := by
  obtain ⟨-, b, hatt⟩ := h.owner r i p howner
  obtain ⟨f, book, hholds⟩ := (h.ring r).active ((h.ring r).active_of_owner howner)
  obtain ⟨hinj, haligned⟩ := h.pages_ring hholds
  rw [hatt.vbuf, intFromPtr_some]
  exact hatt.magic hholds hinj haligned

/-- **The owners see the same bytes.** -/
theorem Inv.shared (h : Inv k) {j : Fin 2} {q : ProcIx}
    (hi : ((k.ringbufs r).owners i).proc = some p) (hj : ((k.ringbufs r).owners j).proc = some q)
    {x : ℕ} (hx : x < 2 * bufCapacity) :
    translate (k.procs p).pagetable (intFromPtr ((k.ringbufs r).owners i).vbuf + x)
      = translate (k.procs q).pagetable (intFromPtr ((k.ringbufs r).owners j).vbuf + x) := by
  have hat : ∀ {i p}, ((k.ringbufs r).owners i).proc = some p →
      translate (k.procs p).pagetable (intFromPtr ((k.ringbufs r).owners i).vbuf + x)
        = ((k.ringbufs r).slot ((pgSize + x) / pgSize)).map (· + (pgSize + x) % pgSize) := by
    intro i p howner
    obtain ⟨-, b, hatt⟩ := h.owner r i p howner
    have hlt : pgSize + x < 33 * pgSize := by
      have : bufCapacity = 16 * pgSize := rfl
      omega
    have hva : (b + 1) * pgSize + x = b * pgSize + (pgSize + x) := by ring
    rw [hatt.vbuf, ← hatt.translate_eq hlt, intFromPtr_some, hva]
  rw [hat hi, hat hj]

/-- **Magic mapping.**  A `ringbuf` that returns from an open has written the eight
bytes of `base` to the user, which is the new owner's base, and the mapping there is
magic; what another owner has at a distance from its base is the same byte. -/
theorem magic_mapping (hk : Reachable k) (hrun : k.Running p) {addr : UInt64}
    (hopen : k.ringbuf p name.bytes .open addr.toNat vaddr = .ok (k', .ok ())) :
    ∃ r i base, (∀ ram, (StoreCall.ringbuf name addr).perform k p ram
        = .ok ((copyoutBytes (k'.procs p).pagetable ram addr.toNat (leBytes 8 base)).1, 0)) ∧
      copyout (k'.procs p).pagetable addr.toNat 8 = true ∧
      base = add64 (k'.procs p).topFreeUvmPg (3 * pgSize) ∧
      (k'.ringbufs r).name = name.bytes ∧ ((k'.ringbufs r).owners i).proc = some p ∧
      ((k'.ringbufs r).owners i).vbuf = some base ∧
      Magic (k'.procs p).pagetable (k'.ringbufs r) base ∧
      ∀ j q, ((k'.ringbufs r).owners j).proc = some q → ∀ x < 2 * bufCapacity,
        translate (k'.procs p).pagetable (base + x)
          = translate (k'.procs q).pagetable
              (intFromPtr ((k'.ringbufs r).owners j).vbuf + x) := by
  have h := hk.inv
  by_cases hlen : name.bytes.length > maxNameLen ∨ name.bytes.length = 0
  · rw [ringbuf, if_pos hlen] at hopen
    cases (Prod.mk.inj (Except.ok.inj hopen)).2
  rw [ringbuf, if_neg hlen] at hopen
  have hempty : name.bytes ≠ [] := fun hno => hlen (.inr (List.length_eq_zero_iff.mpr hno))
  have hwrites := StoreCall.ringbuf_writes hempty hopen
  have hinv := inv_open h hlen name.nonzero hrun hopen
  obtain ⟨r, i, top, hname, howner, htop⟩ := open_named h hlen name.nonzero hopen
  have hproc : ((k'.ringbufs r).owners i).proc = some p := by
    rw [howner]
    rfl
  have hbase : ((k'.ringbufs r).owners i).vbuf
      = some (add64 (k'.procs p).topFreeUvmPg (3 * pgSize)) := by
    obtain ⟨-, b, hatt⟩ := hinv.owner r i p hproc
    have hptr := hatt.vbuf
    rw [howner] at hptr
    simp only [newOwner] at hptr
    have hloc : add64 top (2 * pgSize) = add64 (sub64 top pgSize) (3 * pgSize) := by
      simp only [add64, sub64, pgSize]
      omega
    rw [hatt.vbuf, htop, ← eq_of_ptrFromInt hptr, hloc]
  refine ⟨r, i, _, fun ram => (hwrites ram).1, (hwrites fun _ => 0).2, rfl, hname, hproc, hbase,
    ?_, ?_⟩
  · have hmagic := hinv.magic hproc
    rw [hbase, intFromPtr_some] at hmagic
    exact hmagic
  · intro j q hj x hx
    have hshared := hinv.shared hproc hj hx
    rw [hbase, intFromPtr_some] at hshared
    exact hshared

/-- The second of two processes opens a ring buffer. -/
theorem magic_mapping_second : ∃ k k' r i base, Reachable k ∧
    k.ringbuf 1 demoName.bytes .open 0 0 = .ok (k', .ok ()) ∧
      (∀ ram, (StoreCall.ringbuf demoName 0).perform k 1 ram
        = .ok ((copyoutBytes (k'.procs 1).pagetable ram 0 (leBytes 8 base)).1, 0)) ∧
      ((k'.ringbufs r).owners i).proc = some 1 ∧
      Magic (k'.procs 1).pagetable (k'.ringbufs r) base := by
  obtain ⟨k, hreach, hv⟩ := exists_reachable
    (g := fun k => (decide (k.Running 1),
      (k.ringbuf 1 demoName.bytes .open 0 0).toOption.map fun s => errorOf s.2))
    (v := (true, some none)) [.fork 0, .ringbuf 0 (some demoName) 1 0 0] (by decide +kernel)
  obtain ⟨hrun, hret⟩ := Prod.mk.inj hv
  obtain ⟨⟨k', res⟩, hres, hok⟩ := Option.map_eq_some_iff.mp hret
  obtain rfl : res = .ok () := by
    rcases res with e | -
    · cases hok
    · rfl
  have hopen := toOption_eq_some hres
  obtain ⟨r, i, base, hwrites, -, -, -, hproc, -, hmagic, -⟩ :=
    @magic_mapping k k' 1 demoName 0 hreach (of_decide_eq_true hrun) 0 hopen
  exact ⟨k, k', r, i, base, hreach, hopen, hwrites, hproc, hmagic⟩

end Kernel

end Xv6Zig
