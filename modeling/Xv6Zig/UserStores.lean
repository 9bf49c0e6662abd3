/-
Xv6Zig/UserStores.lean

The system calls that store through a user address: `read` from a file, a pipe
or the console, `fstat`, `wait`, `pipe` and the open of a ring buffer.

All of them come down to `copyout`, in one piece or in several that follow one
another; what they store is the same as if they had stored it at once
(`perform_eq`).  `copyout` asks `walkaddr` for the page, and `walkaddr` looks at
`PTE_V` and `PTE_U` and not at `PTE_W`.  So a page of the program's text, which
the process itself cannot write, is written like any other.

The calls are modelled from where they have what they store.  What they do to
the kernel besides is in `Proc` and `Files`; `kalloc` and `kfree` fill pages too,
but these are no pages of the process then.
-/
import Xv6Zig.Pipe
import Xv6Zig.TextPages

namespace Xv6Zig

open Lib

/-- A number of `n` bytes as it lies in memory. -/
def leBytes (n x : ℕ) : List UInt8 :=
  (List.range n).map fun i => .ofNat (x / 256 ^ i)

@[simp] theorem length_leBytes (n x : ℕ) : (leBytes n x).length = n := by
  rw [leBytes, List.length_map, List.length_range]

/-! ### `readi` -/

/-- The loop of `readi`; `block` is what `bread` of a block of the file gives,
`none` if `bmap` has no block. -/
def readiLoop (pt : PageTable) (block : ℕ → Option (ℕ → UInt8)) (n : ℕ) :
    ℕ → Ram → ℕ → ℕ → ℕ → Ram × ℤ
  | 0, ram, tot, _, _ => (ram, asInt tot)
  | fuel + 1, ram, tot, off, dst =>
      if tot < n then
        match block (off / bSize) with
        | none => (ram, asInt tot)
        | some data =>
            let m := min (n - tot) (bSize - off % bSize)
            let (ram, ok) := copyoutBytes pt ram dst
              ((List.range m).map fun i => data (off % bSize + i))
            if ok then readiLoop pt block n fuel ram (tot + m) (off + m) (add64 dst m)
            else (ram, -1)
      else (ram, asInt tot)

/-- How many bytes `readi` is to read. -/
def readiLength (size off n : ℕ) : ℕ :=
  if size < off ∨ add32 off n < off then 0
  else if size < add32 off n then size - off
  else n

/-- `readi(ip, 1, dst, off, n)`. -/
def readi (pt : PageTable) (ram : Ram) (size : ℕ) (block : ℕ → Option (ℕ → UInt8))
    (dst off n : ℕ) : Ram × ℤ :=
  if size < off ∨ add32 off n < off then (ram, 0)
  else
    let n := if size < add32 off n then size - off else n
    readiLoop pt block n n ram 0 off dst

/-- What the loop of `readi` stores. -/
def readiData (block : ℕ → Option (ℕ → UInt8)) : ℕ → ℕ → ℕ → List UInt8
  | 0, _, _ => []
  | fuel + 1, left, off =>
      if left = 0 then []
      else match block (off / bSize) with
        | none => []
        | some data =>
            let m := min left (bSize - off % bSize)
            ((List.range m).map fun i => data (off % bSize + i)) ++
              readiData block fuel (left - m) (off + m)

/-! ### `consoleread` -/

/-- The loop of `consoleread`; `input` is what arrives, and when it ends the
process is killed. -/
def consoleread (pt : PageTable) (target : ℤ) : List UInt8 → Ram → ℕ → ℤ → Ram × ℤ
  | [], ram, _, n => (ram, if 0 < n then -1 else target - n)
  | c :: input, ram, dst, n =>
      if 0 < n then
        if c = 4 then (ram, target - n)
        else
          let (ram, ok) := copyoutBytes pt ram dst [c]
          if ok then
            if c = 10 then (ram, target - (n - 1))
            else consoleread pt target input ram (add64 dst 1) (n - 1)
          else (ram, target - n)
      else (ram, target - n)

/-- What `consoleread` stores, and whether it is killed before it has all. -/
def consoleData : List UInt8 → ℤ → List UInt8 × Bool
  | [], n => ([], 0 < n)
  | c :: input, n =>
      if 0 < n then
        if c = 4 then ([], false)
        else if c = 10 then ([c], false)
        else (c :: (consoleData input (n - 1)).1, (consoleData input (n - 1)).2)
      else ([], false)

/-! ### `piperead` -/

/-- The second loop of `piperead`, which keeps the lock.  A round reads at least
one byte, so there are at most `PIPESIZE` of them. -/
def pipereadLoop : ℕ → Pipe → PipeRead → Ram → Ram × ℤ
  | 0, _, r, ram => (ram, r.i)
  | fuel + 1, pi, r, ram =>
      if r.i < r.n.toInt then
        if asInt (sub32 pi.nwrite pi.nread) = 0 then (ram, r.i)
        else
          let n := pi.readChunk r
          let (ram, ok) := copyoutBytes r.pagetable ram (add64 r.addr r.i) (pi.chunk r)
          if ok then
            pipereadLoop fuel { pi with nread := add32 pi.nread n } { r with i := r.i + n } ram
          else (ram, r.i)
      else (ram, r.i)

/-- What `piperead` stores. -/
def pipereadData : ℕ → Pipe → PipeRead → List UInt8
  | 0, _, _ => []
  | fuel + 1, pi, r =>
      if r.i < r.n.toInt ∧ asInt (sub32 pi.nwrite pi.nread) ≠ 0 then
        pi.chunk r ++ pipereadData fuel { pi with nread := add32 pi.nread (pi.readChunk r) }
          { r with i := r.i + pi.readChunk r }
      else []

/-! ### The open of a ring buffer -/

namespace Kernel

/-- The page table with which `attach` comes to `copyout`, and the top. -/
def attachMaps (k : Kernel) (p : ProcIx) (r : RingIx) : Option (PageTable × ℕ) :=
  match mapRing (k.ringbufs r) k.mem (k.procs p).pagetable (k.procs p).topFreeUvmPg with
  | .ok (_, pt, top, true) => some (pt, top)
  | _ => none

/-- The same for the open. -/
def openMaps (k : Kernel) (p : ProcIx) (name : List UInt8) : Option (PageTable × ℕ) :=
  match k.findRingbufByName name with
  | some r =>
      let o := (k.ringbufs r).owners
      if (o 0).proc = some p ∨ (o 1).proc = some p then none
      else if (o 0).proc = none ∧ (o 1).proc = none then none
      else if (o 0).proc ≠ none ∧ (o 1).proc ≠ none then none
      else k.attachMaps p r
  | none =>
      match k.findFreeRingbuf with
      | some r =>
          match (k.ringbufs r).activate k.mem name with
          | .ok (m, rb, .ok ()) =>
              if (rb.owners 0).proc ≠ none ∨ (rb.owners 1).proc ≠ none then none
              else ({ k with mem := m }.setRing r rb).attachMaps p r
          | _ => none
      | none => none

end Kernel

/-! ### In pieces or at once -/

variable {pt : PageTable} {ram : Ram}

theorem copyoutBytes_mk (pt : PageTable) (ram : Ram) (va : ℕ) (src : List UInt8) :
    copyoutBytes pt ram va src = ((copyoutBytes pt ram va src).1, copyout pt va src.length) := by
  rw [← copyoutBytes_ok pt ram va src]

theorem copyoutBytes_chunk {va : ℕ} (hva : va < 2 ^ 64) (xs ys : List UInt8) :
    copyoutBytes pt ram va (xs ++ ys) =
      if copyout pt va xs.length = true then
        copyoutBytes pt (copyoutBytes pt ram va xs).1 (add64 va xs.length) ys
      else ((copyoutBytes pt ram va xs).1, false) := by
  rw [copyoutBytes_append]
  split_ifs with hok
  · rw [add64_of_copyout hva hok]
  · rw [copyoutBytes_mk, Bool.eq_false_of_not_eq_true hok]

theorem copyout_append {va : ℕ} (hva : va < 2 ^ 64) (xs ys : List UInt8) :
    copyout pt va (xs ++ ys).length =
      (copyout pt va xs.length && copyout pt (add64 va xs.length) ys.length) := by
  have h := congrArg Prod.snd (@copyoutBytes_chunk pt (fun _ => 0) va hva xs ys)
  rw [copyoutBytes_ok] at h
  rw [h]
  split_ifs with hok
  · rw [copyoutBytes_ok, hok, Bool.true_and]
  · rw [Bool.eq_false_of_not_eq_true hok, Bool.false_and]

/-- **`readi` stores the part of the file.** -/
theorem readiLoop_eq (block : ℕ → Option (ℕ → UInt8)) (n : ℕ) {fuel tot off dst : ℕ}
    (hdst : dst < 2 ^ 64) : readiLoop pt block n fuel ram tot off dst =
      ((copyoutBytes pt ram dst (readiData block fuel (n - tot) off)).1,
        if copyout pt dst (readiData block fuel (n - tot) off).length = true then
          asInt (tot + (readiData block fuel (n - tot) off).length)
        else -1) := by
  induction fuel generalizing ram tot off dst with
  | zero => rfl
  | succ fuel ih =>
    unfold readiLoop readiData
    by_cases hmore : tot < n
    swap
    · rw [if_neg hmore, if_pos (by omega : n - tot = 0)]
      rfl
    rw [if_pos hmore, if_neg (by omega : ¬ n - tot = 0)]
    rcases block (off / bSize) with - | data
    · rfl
    simp only
    rw [copyoutBytes_mk]
    generalize hxs : ((List.range (min (n - tot) (bSize - off % bSize))).map
      fun i => data (off % bSize + i)) = xs
    have hlen : min (n - tot) (bSize - off % bSize) = xs.length := by
      rw [← hxs, List.length_map, List.length_range]
    rw [hlen, copyoutBytes_chunk hdst, copyout_append hdst]
    cases copyout pt dst xs.length with
    | true =>
      simp only [if_true, Bool.true_and]
      rw [ih (add64_lt _ _), Nat.sub_sub, List.length_append, Nat.add_assoc]
    | false => rfl

/-- **`consoleread` stores the line**; it fails only when the process is killed
while it waits for more. -/
theorem consoleread_eq (input : List UInt8) {target n : ℤ} {dst : ℕ} (hn : n ≤ target)
    (hdst : dst < 2 ^ 64) :
    (consoleread pt target input ram dst n).1
        = (copyoutBytes pt ram dst (consoleData input n).1).1 ∧
      ((consoleread pt target input ram dst n).2 < 0 ↔
        copyout pt dst (consoleData input n).1.length = true ∧ (consoleData input n).2 = true) := by
  have hsome : ∀ {m : ℤ}, m ≤ target → ¬ target - m < 0 := by
    intro m hm
    omega
  induction input generalizing ram dst n with
  | nil =>
    refine ⟨rfl, ?_⟩
    show (if 0 < n then -1 else target - n) < 0 ↔ true = true ∧ decide (0 < n) = true
    split_ifs with hpos
    · simp [hpos]
    · simp [hpos, hsome hn]
  | cons c input ih =>
    unfold consoleread consoleData
    by_cases hpos : 0 < n
    swap
    · simp only [hpos, if_false]
      exact ⟨rfl, by simp [hsome hn]⟩
    simp only [hpos, if_true]
    by_cases hend : c = 4
    · simp only [hend, if_true]
      exact ⟨rfl, by simp [hsome hn]⟩
    simp only [hend, if_false]
    rw [copyoutBytes_mk]
    by_cases hline : c = 10
    · simp only [hline, if_true]
      cases copyout pt dst [10].length with
      | true => exact ⟨rfl, by simp [hsome (show n - 1 ≤ target by omega)]⟩
      | false => exact ⟨rfl, by simp [hsome hn]⟩
    simp only [hline, if_false]
    generalize hrest : consoleData input (n - 1) = rest
    rw [show c :: rest.1 = [c] ++ rest.1 from rfl, copyoutBytes_chunk hdst, copyout_append hdst]
    cases copyout pt dst [c].length with
    | true =>
      simp only [if_true, Bool.true_and, ← hrest]
      exact ih (by omega) (add64_lt _ _)
    | false => exact ⟨rfl, by simp [hsome hn]⟩

/-- **`piperead` stores what is in the ring**, as far as it is asked for. -/
theorem pipereadLoop_eq (fuel : ℕ) (pi : Pipe) (r : PipeRead) :
    (pipereadLoop fuel pi r ram).1
        = (copyoutBytes r.pagetable ram (add64 r.addr r.i) (pipereadData fuel pi r)).1 ∧
      0 ≤ (pipereadLoop fuel pi r ram).2 := by
  induction fuel generalizing pi r ram with
  | zero => exact ⟨rfl, Int.natCast_nonneg _⟩
  | succ fuel ih =>
    unfold pipereadLoop pipereadData
    by_cases hmore : r.i < r.n.toInt
    swap
    · rw [if_neg hmore, if_neg fun h => hmore h.1]
      exact ⟨rfl, Int.natCast_nonneg _⟩
    by_cases hnone : asInt (sub32 pi.nwrite pi.nread) = 0
    · rw [if_pos hmore, if_pos hnone, if_neg fun h => h.2 hnone]
      exact ⟨rfl, Int.natCast_nonneg _⟩
    rw [if_pos hmore, if_neg hnone, if_pos ⟨hmore, hnone⟩, copyoutBytes_chunk (add64_lt _ _)]
    simp only
    rw [copyoutBytes_mk]
    have hlen : (pi.chunk r).length = pi.readChunk r := by
      rw [Pipe.chunk, List.length_map, List.length_range]
    cases copyout r.pagetable (add64 r.addr r.i) (pi.chunk r).length with
    | true =>
      have hnext := @ih (copyoutBytes r.pagetable ram (add64 r.addr r.i) (pi.chunk r)).1
        { pi with nread := add32 pi.nread (pi.readChunk r) } { r with i := r.i + pi.readChunk r }
      simp only at hnext
      simp only [if_true]
      rw [hlen, add64_add64]
      exact hnext
    | false => exact ⟨rfl, Int.natCast_nonneg _⟩

/-! ### What the open has mapped -/

namespace Kernel

variable {k k' : Kernel} {p : ProcIx} {r : RingIx} {i : Fin 2} {name : List UInt8} {addr : ℕ}
  {res : Except RingbufError Unit}

/-- How the end of an open is told by what it has mapped. -/
def MapsTo (maps : Option (PageTable × ℕ)) (p : ProcIx) (addr : ℕ) (k' : Kernel)
    (res : Except RingbufError Unit) : Prop :=
  match maps with
  | none => res ≠ .ok ()
  | some (pt, top) => (k'.procs p).pagetable = pt ∧
      (res = .ok () → (k'.procs p).topFreeUvmPg = sub64 top pgSize) ∧
      (res = .ok () ↔ copyout pt addr 8 = true)

theorem attach_mapsTo (h : k.attach p r i addr = .ok (k', res)) :
    MapsTo (k.attachMaps p r) p addr k' res := by
  unfold attach at h
  obtain ⟨⟨m, pt, top, ok⟩, hmap, h⟩ := bind_eq_ok.mp h
  unfold attachMaps
  rw [hmap]
  cases ok with
  | false =>
    simp only [Bool.false_eq_true, if_false] at h
    obtain ⟨_, -, h⟩ := bind_eq_ok.mp h
    cases h
    exact fun hno => nomatch hno
  | true =>
    simp only [if_true] at h
    have hself : ∀ (k₁ : Kernel) (q : Proc) (rb : Ringbuf),
        ((k₁.setProc p q).setRing r rb).procs p = q := by
      intro k₁ q rb
      show Function.update k₁.procs p q p = q
      rw [Function.update_self]
    by_cases hcopy : copyout pt addr 8 = true
    · rw [if_pos hcopy] at h
      cases h
      exact ⟨by rw [hself], fun _ => by rw [hself], fun _ => hcopy, fun _ => rfl⟩
    · rw [if_neg hcopy] at h
      obtain ⟨_, -, h⟩ := bind_eq_ok.mp h
      cases h
      exact ⟨by rw [hself], (fun hno => nomatch hno), (fun hno => nomatch hno),
        fun hyes => absurd hyes hcopy⟩

theorem open_mapsTo (h : k.openRingbuf p name addr = .ok (k', res)) :
    MapsTo (k.openMaps p name) p addr k' res := by
  have hfail : ∀ {e : RingbufError} {k₁ : Kernel},
      (.ok (k₁, .error e) : Except Panic (Kernel × Except RingbufError Unit)) = .ok (k', res) →
        MapsTo none p addr k' res := by
    intro e k₁ h
    cases h
    exact fun hno => nomatch hno
  unfold openRingbuf at h
  unfold openMaps
  rcases hfind : k.findRingbufByName name with - | r
  · rcases hfree : k.findFreeRingbuf with - | r
    · simp only [hfind, hfree] at h ⊢
      exact hfail h
    · simp only [hfind, hfree] at h ⊢
      obtain ⟨⟨m, rb, act⟩, hact, h⟩ := bind_eq_ok.mp h
      simp only [hact]
      rcases act with e | u
      · exact hfail h
      · simp only at h ⊢
        split_ifs at h ⊢
        exact attach_mapsTo h
  · simp only [hfind] at h ⊢
    split_ifs at h ⊢
    · exact hfail h
    · exact hfail h
    · exact attach_mapsTo h
    · exact attach_mapsTo h

/-- What was mapped stays, and what is new can be written. -/
theorem open_extended (h : Inv k) (hname : ¬ (name.length > maxNameLen ∨ name.length = 0))
    (hzero : 0 ∉ name) (hopen : k.openRingbuf p name addr = .ok (k', res)) :
    Grown (k.procs p).pagetable (k'.procs p).pagetable ∧
      Extended (k.procs p).pagetable (k'.procs p).pagetable := by
  have hproc := h.proc p
  rcases open_cases h hname hzero hopen with ⟨-, -, -, -, hprocs, -⟩ | ⟨-, k₁, r, i, f, book,
    m, pt, -, -, -, -, ⟨hmap, -, -, rfl⟩ | ⟨top, ok, hundone, -, rfl⟩⟩
  · rw [hprocs]
    exact ⟨fun _ _ hleaf => hleaf, .of_eq rfl⟩
  · have hend := of_mapDown hproc.aligned hproc.word hmap
    rw [opened_procs_self]
    exact ⟨hend.grown.1, hend.extended⟩
  · have hend := hundone.ended h
    rw [undone_procs_self]
    exact ⟨hend.grown.1, hend.extended⟩

theorem readOnly_of_extended {v : ℕ} {pte : Pte}
    (h : Grown (k.procs p).pagetable (k'.procs p).pagetable ∧
      Extended (k.procs p).pagetable (k'.procs p).pagetable) :
    ReadOnly k' p v pte ↔ ReadOnly k p v pte := by
  constructor
  · intro hro
    refine ⟨(h.2 v pte hro.leaf).resolve_right fun hnew => ?_, hro.user, hro.fixed⟩
    rw [hro.fixed] at hnew
    cases hnew.2
  · exact fun hro => ⟨h.1 v pte hro.leaf, hro.user, hro.fixed⟩

end Kernel

/-! ### `copyout` and pages without `PTE_W` -/

section Keeps

open Kernel (Inv StrayOk ReadOnly)

variable {k : Kernel} {p : ProcIx} {v va : ℕ} {pte : Pte} {data : List UInt8}

/-- The bytes of a page that cannot be written are reached through it only. -/
theorem Kernel.ReadOnly.of_reach (h : Inv k) (hok : StrayOk k p) (hro : ReadOnly k p v pte)
    {len o j : ℕ} (ho : o < pgSize) (hj : j < (reach (k.procs p).pagetable va len).length)
    (heq : (reach (k.procs p).pagetable va len)[j] = pte.pa + o) : va + j = v * pgSize + o := by
  have haddr := (reached (k.procs p).pagetable va len).addr j hj
  obtain ⟨-, pte', hleaf, huser, hpa⟩ := translate_eq_some.mp haddr
  have h₁ := h.aligned_leaf hok hleaf huser
  have h₂ := h.aligned_leaf hok hro.leaf hro.user
  rw [heq] at hpa
  have hframe : pte'.pa = pte.pa ∧ o = (va + j) % pgSize := by
    simp only [pgSize] at h₁ h₂ ho hpa ⊢
    omega
  have hpage := hro.unique h hok hleaf huser hframe.1
  rw [← hpage, hframe.2]
  exact (Nat.div_add_mod' (va + j) pgSize).symm

/-- **When a `copyout` keeps the pages without `PTE_W`**: what it stores in them
is what they hold. -/
theorem copyout_keeps_iff (h : Inv k) (hok : StrayOk k p) (ram : Ram) :
    (∀ v pte, ReadOnly k p v pte → ∀ o < pgSize,
        (copyoutBytes (k.procs p).pagetable ram va data).1 (pte.pa + o) = ram (pte.pa + o)) ↔
      ∀ j (hj : j < data.length), (∀ i ≤ j, translate (k.procs p).pagetable (va + i) ≠ none) →
        ∀ pte, ReadOnly k p ((va + j) / pgSize) pte →
          data[j] = ram (pte.pa + (va + j) % pgSize) := by
  rw [copyoutBytes_eq]
  have hreached := reached (k.procs p).pagetable va data.length
  have hstored : ∀ j (hj : j < (reach (k.procs p).pagetable va data.length).length) pte,
      ReadOnly k p ((va + j) / pgSize) pte →
      applyUpdates ram ((reach (k.procs p).pagetable va data.length).zip data)
        (pte.pa + (va + j) % pgSize) = data.get ⟨j, lt_of_lt_of_le hj hreached.le⟩ := by
    intro j hj pte hro
    have haddr := hreached.addr j hj
    obtain ⟨-, pte', hleaf, -, hpa⟩ := translate_eq_some.mp haddr
    obtain rfl : pte = pte' := Option.some.inj (hro.leaf.symm.trans hleaf)
    rw [← hpa]
    refine applyUpdates_zip ram hj _ fun i hi heq => ?_
    rw [hpa] at heq
    have hsame := hro.of_reach h hok (Nat.mod_lt _ pgSize_pos) hi heq
    rw [Nat.div_add_mod'] at hsame
    omega
  constructor
  · intro hkeep j hj hall pte hro
    have hjr : j < (reach (k.procs p).pagetable va data.length).length :=
      lt_length_reach.mpr ⟨hj, hall⟩
    rw [← hkeep _ pte hro _ (Nat.mod_lt _ pgSize_pos)]
    exact (hstored j hjr pte hro).symm
  · intro hsame v pte hro o ho
    by_cases hmem : pte.pa + o ∈ reach (k.procs p).pagetable va data.length
    · obtain ⟨j, hj, heq⟩ := List.mem_iff_getElem.mp hmem
      have hat := hro.of_reach h hok ho hj heq
      have hdiv : (va + j) / pgSize = v := by
        rw [hat, Nat.add_comm, Nat.add_mul_div_right _ _ pgSize_pos, Nat.div_eq_of_lt ho, zero_add]
      have hmod : (va + j) % pgSize = o := by
        rw [hat, Nat.add_comm, Nat.add_mul_mod_self_right, Nat.mod_eq_of_lt ho]
      obtain ⟨hjd, hall⟩ := lt_length_reach.mp hj
      rw [← hdiv] at hro
      have hval := (hstored j hj pte hro).trans (hsame j hjd hall pte hro)
      rwa [hmod] at hval
    · -- the byte is not reached
      apply applyUpdates_of_notMem
      intro hin
      obtain ⟨x, hx, heq⟩ := List.mem_map.mp hin
      exact hmem (heq ▸ (List.of_mem_zip hx).1)

end Keeps

/-! ### The calls -/

/-- A system call that stores through a user address, with what it stores. -/
inductive StoreCall
  | readInode (size : Fin (maxFile * bSize + 1)) (block : ℕ → Option (ℕ → UInt8)) (off : UInt32)
      (addr : UInt64) (n : Int32)
  | readPipe (pi : Pipe) (count : sub32 pi.nwrite pi.nread ≤ pipeSize) (addr : UInt64) (n : Int32)
  | readConsole (input : List UInt8) (addr : UInt64) (n : Int32)
  | fstat (st : Fin 24 → UInt8) (addr : UInt64)
  | wait (pid : ℕ) (xstate : UInt32) (addr : UInt64)
  | pipe (fd0 fd1 : Fin 16) (fdarray : UInt64)
  | ringbuf (name : CStr) (addr : UInt64)

namespace StoreCall

/-- Memory after the call and what it returns. -/
def perform (k : Kernel) (p : ProcIx) (ram : Ram) : StoreCall → Except Panic (Ram × ℤ)
  | .readInode size block off addr n =>
      .ok (readi (k.procs p).pagetable ram size block addr.toNat off.toNat n.toUInt32.toNat)
  | .readPipe pi _ addr n =>
      .ok (pipereadLoop (pipeSize + 1) pi ⟨(k.procs p).pagetable, addr.toNat, n, 0⟩ ram)
  | .readConsole input addr n =>
      .ok (consoleread (k.procs p).pagetable n.toInt input ram addr.toNat n.toInt)
  | .fstat st addr =>
      let (ram, ok) := copyoutBytes (k.procs p).pagetable ram addr.toNat (List.ofFn st)
      .ok (ram, if ok then 0 else -1)
  | .wait pid xstate addr =>
      if addr.toNat ≠ 0 then
        let (ram, ok) := copyoutBytes (k.procs p).pagetable ram addr.toNat (leBytes 4 xstate.toNat)
        .ok (ram, if ok then pid else -1)
      else .ok (ram, pid)
  | .pipe fd0 fd1 fdarray =>
      let (ram, ok) := copyoutBytes (k.procs p).pagetable ram fdarray.toNat (leBytes 4 fd0)
      if ok then
        let (ram, ok) :=
          copyoutBytes (k.procs p).pagetable ram (add64 fdarray.toNat 4) (leBytes 4 fd1)
        .ok (ram, if ok then 0 else -1)
      else .ok (ram, -1)
  | .ringbuf name addr => do
      let (_, n) ← k.sysRingbuf p (some name) 1 addr.toNat 0
      if name.bytes = [] then .ok (ram, n)
      else match k.openMaps p name.bytes with
        | some (pt, top) =>
            .ok ((copyoutBytes pt ram addr.toNat (leBytes 8 (add64 top (2 * pgSize)))).1, n)
        | none => .ok (ram, n)

/-- What a call comes to: a `copyout` of some bytes.  If it fails the call
fails, too (`reports`), and the call can fail though it succeeds (`fails`). -/
structure Plan where
  pagetable : PageTable
  addr : ℕ
  data : List UInt8
  reports : Bool
  fails : Bool

/-- What the call comes to. -/
def plan (k : Kernel) (p : ProcIx) : StoreCall → Plan
  | .readInode size block off addr n =>
      let len := readiLength size off.toNat n.toUInt32.toNat
      ⟨(k.procs p).pagetable, addr.toNat, readiData block len len off.toNat, true, false⟩
  | .readPipe pi _ addr n =>
      ⟨(k.procs p).pagetable, addr.toNat,
        pipereadData (pipeSize + 1) pi ⟨(k.procs p).pagetable, addr.toNat, n, 0⟩, false, false⟩
  | .readConsole input addr n =>
      ⟨(k.procs p).pagetable, addr.toNat, (consoleData input n.toInt).1, false,
        (consoleData input n.toInt).2⟩
  | .fstat st addr => ⟨(k.procs p).pagetable, addr.toNat, List.ofFn st, true, false⟩
  | .wait _ xstate addr =>
      ⟨(k.procs p).pagetable, addr.toNat,
        if addr.toNat ≠ 0 then leBytes 4 xstate.toNat else [], true, false⟩
  | .pipe fd0 fd1 fdarray =>
      ⟨(k.procs p).pagetable, fdarray.toNat, leBytes 4 fd0 ++ leBytes 4 fd1, true, false⟩
  | .ringbuf name addr =>
      if name.bytes = [] then ⟨(k.procs p).pagetable, addr.toNat, [], true, true⟩
      else match k.openMaps p name.bytes with
        | some (pt, top) => ⟨pt, addr.toNat, leBytes 8 (add64 top (2 * pgSize)), true, false⟩
        | none => ⟨(k.procs p).pagetable, addr.toNat, [], true, true⟩

variable {k k' : Kernel} {p : ProcIx} {ram ram' : Ram} {ret : ℤ}

theorem length_readiData_le (block : ℕ → Option (ℕ → UInt8)) (fuel left off : ℕ) :
    (readiData block fuel left off).length ≤ left := by
  induction fuel generalizing left off with
  | zero => exact Nat.zero_le _
  | succ fuel ih =>
    unfold readiData
    split_ifs
    · exact Nat.zero_le _
    · rcases block (off / bSize) with - | data
      · exact Nat.zero_le _
      · simp only [List.length_append, List.length_map, List.length_range]
        have hrest := ih (left - min left (bSize - off % bSize)) (off + min left (bSize - off % bSize))
        omega

theorem readiLength_le {size off n : ℕ} (hn : n < 2 ^ 32) : readiLength size off n ≤ size := by
  unfold readiLength
  split_ifs with hout hlong
  · exact Nat.zero_le _
  · exact Nat.sub_le _ _
  · simp only [add32] at hout hlong
    omega

theorem readi_eq (size off n : ℕ) (block : ℕ → Option (ℕ → UInt8)) (dst : ℕ) :
    readi pt ram size block dst off n = readiLoop pt block (readiLength size off n)
      (readiLength size off n) ram 0 off dst := by
  unfold readi readiLength
  split_ifs
  · rfl
  · rfl
  · rfl

/-- What a call has done: the `copyout` of its plan. -/
structure Done (pl : Plan) (ram ram' : Ram) (ret : ℤ) : Prop where
  ram : ram' = (copyoutBytes pl.pagetable ram pl.addr pl.data).1
  failed : ret < 0 ↔
    if copyout pl.pagetable pl.addr pl.data.length = true then pl.fails = true else pl.reports = true

/-- A call that returns -1 if the `copyout` fails and something else if not. -/
theorem Done.of_copyout {a : ℤ} (ha : 0 ≤ a) (pt : PageTable) (ram : Ram) (va : ℕ)
    (src : List UInt8) : Done ⟨pt, va, src, true, false⟩ ram (copyoutBytes pt ram va src).1
      (if copyout pt va src.length = true then a else -1) := by
  refine ⟨rfl, ?_⟩
  simp only
  split_ifs
  · simp [ha]
  · simp

theorem Done.of_nothing (pt : PageTable) (ram : Ram) (va : ℕ) (reports fails : Bool)
    (h : ret < 0 ↔ fails = true) : Done ⟨pt, va, [], reports, fails⟩ ram ram ret :=
  ⟨rfl, h⟩

theorem readInode_done (size : Fin (maxFile * bSize + 1)) (block : ℕ → Option (ℕ → UInt8))
    (off : UInt32) (addr : UInt64) (n : Int32)
    (h : (readInode size block off addr n).perform k p ram = .ok (ram', ret)) :
    Done ((readInode size block off addr n).plan k p) ram ram' ret := by
  have hret := Except.ok.inj h
  rw [readi_eq, readiLoop_eq _ _ addr.toNat_lt, Nat.sub_zero, zero_add] at hret
  cases hret
  apply Done.of_copyout
  -- a file is much shorter than 2^31 bytes
  have hlen := length_readiData_le block (readiLength size off.toNat n.toUInt32.toNat)
    (readiLength size off.toNat n.toUInt32.toNat) off.toNat
  have hsize : readiLength size off.toNat n.toUInt32.toNat ≤ size :=
    readiLength_le n.toUInt32.toNat_lt
  have hmax := size.isLt
  unfold asInt
  rw [if_pos (by simp only [maxFile, bSize] at hmax; omega)]
  exact Int.natCast_nonneg _

theorem readPipe_done (pi : Pipe) (count : sub32 pi.nwrite pi.nread ≤ pipeSize) (addr : UInt64)
    (n : Int32) (h : (readPipe pi count addr n).perform k p ram = .ok (ram', ret)) :
    Done ((readPipe pi count addr n).plan k p) ram ram' ret := by
  have hret := Except.ok.inj h
  obtain ⟨h₁, h₂⟩ := @pipereadLoop_eq ram (pipeSize + 1) pi ⟨(k.procs p).pagetable, addr.toNat, n, 0⟩
  rw [hret] at h₁ h₂
  have haddr : add64 addr.toNat 0 = addr.toNat := Nat.mod_eq_of_lt addr.toNat_lt
  simp only [haddr] at h₁
  refine ⟨h₁, ?_⟩
  have hpos : 0 ≤ ret := h₂
  simp [plan, hpos]

theorem readConsole_done (input : List UInt8) (addr : UInt64) (n : Int32)
    (h : (readConsole input addr n).perform k p ram = .ok (ram', ret)) :
    Done ((readConsole input addr n).plan k p) ram ram' ret := by
  have hret := Except.ok.inj h
  obtain ⟨h₁, h₂⟩ := @consoleread_eq (k.procs p).pagetable ram input n.toInt n.toInt addr.toNat
    le_rfl addr.toNat_lt
  rw [hret] at h₁ h₂
  refine ⟨h₁, h₂.trans ?_⟩
  simp only [plan]
  split_ifs with hok
  · simp [hok]
  · simp [hok]

theorem wait_done (pid : ℕ) (xstate : UInt32) (addr : UInt64)
    (h : (wait pid xstate addr).perform k p ram = .ok (ram', ret)) :
    Done ((wait pid xstate addr).plan k p) ram ram' ret := by
  simp only [perform] at h
  unfold plan
  by_cases haddr : addr.toNat ≠ 0
  · rw [if_pos haddr, copyoutBytes_mk] at h
    cases h
    simp only [if_pos haddr]
    exact Done.of_copyout (Int.natCast_nonneg pid) _ _ _ _
  · rw [if_neg haddr] at h
    cases h
    simp only [if_neg haddr]
    exact Done.of_nothing _ _ _ _ _ (by simp)

theorem pipe_done (fd0 fd1 : Fin 16) (fdarray : UInt64)
    (h : (pipe fd0 fd1 fdarray).perform k p ram = .ok (ram', ret)) :
    Done ((pipe fd0 fd1 fdarray).plan k p) ram ram' ret := by
  have hchunk := @copyoutBytes_chunk (k.procs p).pagetable ram fdarray.toNat fdarray.toNat_lt
    (leBytes 4 fd0) (leBytes 4 fd1)
  have happ := @copyout_append (k.procs p).pagetable fdarray.toNat fdarray.toNat_lt
    (leBytes 4 fd0) (leBytes 4 fd1)
  have hdone := Done.of_copyout (le_refl 0) (k.procs p).pagetable ram fdarray.toNat
    (leBytes 4 fd0 ++ leBytes 4 fd1)
  simp only [perform] at h
  rw [copyoutBytes_mk] at h
  rw [hchunk, happ] at hdone
  simp only [length_leBytes] at h hdone
  cases hok : copyout (k.procs p).pagetable fdarray.toNat 4 with
  | true =>
    simp only [hok, if_true, Bool.true_and] at h hdone
    rw [copyoutBytes_mk, length_leBytes] at h
    cases h
    exact hdone
  | false =>
    simp only [hok, Bool.false_eq_true, if_false, Bool.false_and] at h hdone
    cases h
    exact hdone

theorem ringbuf_cases {name : CStr} {addr : UInt64}
    (h : (ringbuf name addr).perform k p ram = .ok (ram', ret)) :
    (name.bytes = [] ∧ ram' = ram ∧ ret < 0) ∨
    (name.bytes ≠ [] ∧ ∃ k' res, k.openRingbuf p name.bytes addr.toNat = .ok (k', res) ∧
      ret = Kernel.retval res ∧
      ram' = match k.openMaps p name.bytes with
        | some (pt, top) => (copyoutBytes pt ram addr.toNat (leBytes 8 (add64 top (2 * pgSize)))).1
        | none => ram) := by
  obtain ⟨⟨k', n⟩, hsys, h⟩ := bind_eq_ok.mp h
  by_cases hempty : name.bytes = []
  · simp only [hempty, if_true] at h
    cases h
    have hbad : k.sysRingbuf p (some name) 1 addr.toNat 0
        = .ok (k, intFromErr .badNameLength) := by
      simp [Kernel.sysRingbuf, Kernel.Op.fromInt, Kernel.ringbuf, hempty]
    rw [hbad] at hsys
    cases hsys
    exact .inl ⟨hempty, rfl, Kernel.intFromErr_neg _⟩
  · refine .inr ⟨hempty, ?_⟩
    obtain ⟨res, rfl, hcalled⟩ := Kernel.of_sysRingbuf hsys
    cases hcalled with
    | failed hnone =>
      rw [Kernel.opens, Option.filter_some] at hnone
      simp [hempty] at hnone
    | closed hno => exact absurd hno (by decide)
    | opened hname _ _ hopen =>
      obtain ⟨hsome, -, -⟩ := Kernel.mem_opens.mp hname
      cases hsome
      refine ⟨k', res, hopen, ?_⟩
      simp only [hempty, if_false] at h
      rcases hmaps : k.openMaps p name.bytes with - | ⟨pt, top⟩
      · simp only [hmaps] at h
        cases h
        exact ⟨rfl, rfl⟩
      · simp only [hmaps] at h
        cases h
        exact ⟨rfl, rfl⟩

theorem retval_neg_iff (res : Except RingbufError Unit) : Kernel.retval res < 0 ↔ res ≠ .ok () := by
  rcases res with e | u
  · exact ⟨(fun _ hno => nomatch hno), fun _ => Kernel.intFromErr_neg e⟩
  · exact ⟨(fun hno => absurd hno (lt_irrefl 0)), fun hno => absurd rfl hno⟩

theorem Done.of_retval {res : Except RingbufError Unit} {pt : PageTable} {va : ℕ}
    {src : List UInt8} (h : res = .ok () ↔ copyout pt va src.length = true) (ram : Ram) :
    Done ⟨pt, va, src, true, false⟩ ram (copyoutBytes pt ram va src).1 (Kernel.retval res) := by
  refine ⟨rfl, ?_⟩
  rw [retval_neg_iff, Ne, h]
  simp

theorem ringbuf_done {name : CStr} {addr : UInt64}
    (h : (ringbuf name addr).perform k p ram = .ok (ram', ret)) :
    Done ((ringbuf name addr).plan k p) ram ram' ret := by
  unfold plan
  rcases ringbuf_cases h with ⟨hempty, rfl, hneg⟩ | ⟨hempty, k', res, hopen, rfl, rfl⟩
  · simp only [hempty, if_true]
    exact Done.of_nothing _ _ _ _ _ (by simp [hneg])
  · simp only [hempty, if_false]
    have hmaps := Kernel.open_mapsTo hopen
    generalize k.openMaps p name.bytes = maps at hmaps ⊢
    rcases maps with - | ⟨pt, top⟩
    · exact Done.of_nothing _ _ _ _ _ (by simp [(retval_neg_iff res).mpr hmaps])
    · apply Done.of_retval
      rw [length_leBytes]
      exact hmaps.2.2

/-- An open that succeeds has written the address of the buffer to the user. -/
theorem ringbuf_writes {name : CStr} {addr : UInt64} {k' : Kernel} (hempty : name.bytes ≠ [])
    (hopen : k.openRingbuf p name.bytes addr.toNat = .ok (k', .ok ())) (ram : Ram) :
    (ringbuf name addr).perform k p ram = .ok ((copyoutBytes (k'.procs p).pagetable ram addr.toNat
      (leBytes 8 (add64 (k'.procs p).topFreeUvmPg (3 * pgSize)))).1, 0) ∧
    copyout (k'.procs p).pagetable addr.toNat 8 = true := by
  have hsys : k.sysRingbuf p (some name) 1 addr.toNat 0 = .ok (k', 0) := by
    have hring : k.ringbuf p name.bytes .open addr.toNat 0 = .ok (k', .ok ()) := by
      rw [Kernel.ringbuf, if_neg (CStr.not_badLength hempty)]
      exact hopen
    simp [Kernel.sysRingbuf, Kernel.Op.fromInt, hring]
  have hmaps := Kernel.open_mapsTo hopen
  rcases hm : k.openMaps p name.bytes with - | ⟨pt, top⟩ <;> rw [hm] at hmaps
  · exact absurd rfl hmaps
  obtain ⟨hpt, htop, hcopy⟩ := hmaps
  have hbase : add64 (sub64 top pgSize) (3 * pgSize) = add64 top (2 * pgSize) := by
    simp only [add64, sub64, pgSize]
    omega
  rw [hpt, htop rfl, hbase]
  refine ⟨?_, hcopy.mp rfl⟩
  simp only [perform, hsys, ok_bind, if_neg hempty, hm]

/-- **Every call does what its plan says.** -/
theorem perform_eq {c : StoreCall} (h : c.perform k p ram = .ok (ram', ret)) :
    Done (c.plan k p) ram ram' ret := by
  cases c with
  | readInode size block off addr n => exact readInode_done size block off addr n h
  | readPipe pi count addr n => exact readPipe_done pi count addr n h
  | readConsole input addr n => exact readConsole_done input addr n h
  | fstat st addr =>
    simp only [perform] at h
    rw [copyoutBytes_mk] at h
    cases h
    exact Done.of_copyout le_rfl _ _ _ _
  | wait pid xstate addr => exact wait_done pid xstate addr h
  | pipe fd0 fd1 fdarray => exact pipe_done fd0 fd1 fdarray h
  | ringbuf name addr => exact ringbuf_done h

/-! ### Which calls keep the text -/

open Kernel (Inv StrayOk ReadOnly Reachable)

/-- The call is to store in a page without `PTE_W`. -/
def Touches (c : StoreCall) (k : Kernel) (p : ProcIx) : Prop :=
  ∃ j < (c.plan k p).data.length, ∃ pte, ReadOnly k p (((c.plan k p).addr + j) / pgSize) pte

/-- The pages without `PTE_W` hold what they held, and a call that is to store in
one fails. -/
structure Respects (c : StoreCall) (k : Kernel) (p : ProcIx) (ram ram' : Ram) (ret : ℤ) : Prop where
  keeps : ∀ v pte, ReadOnly k p v pte → ∀ o < pgSize, ram' (pte.pa + o) = ram (pte.pa + o)
  fails : c.Touches k p → ret < 0

/-- What the call stores in a page without `PTE_W` is what is there, and if it is
to store in one, another page of the range makes it fail (or the process is
killed at the console). -/
structure Harmless (c : StoreCall) (k : Kernel) (p : ProcIx) (ram : Ram) : Prop where
  same : ∀ j (hj : j < (c.plan k p).data.length),
    (∀ i ≤ j, translate (c.plan k p).pagetable ((c.plan k p).addr + i) ≠ none) →
    ∀ pte, ReadOnly k p (((c.plan k p).addr + j) / pgSize) pte →
      (c.plan k p).data[j] = ram (pte.pa + ((c.plan k p).addr + j) % pgSize)
  other : c.Touches k p →
    if copyout (c.plan k p).pagetable (c.plan k p).addr (c.plan k p).data.length = true
    then (c.plan k p).fails = true else (c.plan k p).reports = true

/-- The page table of the plan is that of a kernel with the same pages without
`PTE_W`: `ringbuf` has mapped its pages by then, which are not such pages. -/
theorem exists_planned {c : StoreCall} (h : Inv k) (hok : StrayOk k p) (hrun : k.Running p)
    (hperf : c.perform k p ram = .ok (ram', ret)) :
    ∃ k', Inv k' ∧ StrayOk k' p ∧ (k'.procs p).pagetable = (c.plan k p).pagetable ∧
      ∀ v pte, ReadOnly k' p v pte ↔ ReadOnly k p v pte := by
  cases c with
  | ringbuf name addr =>
    unfold plan
    rcases ringbuf_cases hperf with ⟨hempty, -, -⟩ | ⟨hempty, k', res, hopen, -, -⟩
    · simp only [hempty, if_true]
      exact ⟨k, h, hok, rfl, fun _ _ => Iff.rfl⟩
    simp only [hempty, if_false]
    have hmaps := Kernel.open_mapsTo hopen
    generalize k.openMaps p name.bytes = maps at hmaps ⊢
    rcases maps with - | ⟨pt, top⟩
    · exact ⟨k, h, hok, rfl, fun _ _ => Iff.rfl⟩
    have hname := CStr.not_badLength hempty
    exact ⟨k', Kernel.inv_open h hname name.nonzero hrun hopen,
      hok.open h hname name.nonzero hrun hopen, hmaps.1,
      fun _ _ => Kernel.readOnly_of_extended (Kernel.open_extended h hname name.nonzero hopen)⟩
  | _ => exact ⟨k, h, hok, rfl, fun _ _ => Iff.rfl⟩

/-- **When a system call leaves the text alone.** -/
theorem respects_iff_harmless (hreach : Reachable k) (hrun : k.Running p) (c : StoreCall)
    (hperf : c.perform k p ram = .ok (ram', ret)) :
    c.Respects k p ram ram' ret ↔ c.Harmless k p ram := by
  obtain ⟨k', hinv, hok, hpt, hro⟩ :=
    exists_planned hreach.inv (hreach.strayOk p) hrun hperf
  have hdone := perform_eq hperf
  have hkeeps := @copyout_keeps_iff k' p (c.plan k p).addr (c.plan k p).data hinv hok ram
  simp only [hpt, hro, ← hdone.ram] at hkeeps
  constructor
  · rintro ⟨hkeep, hfail⟩
    exact ⟨hkeeps.mp hkeep, fun htouch => hdone.failed.mp (hfail htouch)⟩
  · rintro ⟨hsame, hother⟩
    exact ⟨hkeeps.mpr hsame, fun htouch => hdone.failed.mpr (hother htouch)⟩

theorem fstat_perform {st : Fin 24 → UInt8} {addr : UInt64}
    (h : copyout (k.procs p).pagetable addr.toNat 24 = true) (ram : Ram) :
    (fstat st addr).perform k p ram =
      .ok ((copyoutBytes (k.procs p).pagetable ram addr.toNat (List.ofFn st)).1, 0) := by
  simp only [perform]
  rw [copyoutBytes_mk, List.length_ofFn, h]
  rfl

/-- The first page of a program's text, in the run below. -/
def demoText : Pte := ⟨0x8020a000, ⟨true, false, true, true, Perm.readExec⟩⟩

/-- `fstat` into the stack. -/
theorem respects_stack : ∃ k ram', Reachable k ∧ k.Running 0 ∧ ReadOnly k 0 0 demoText ∧
    (fstat (fun _ => 1) 8292).perform k 0 (fun _ => 0) = .ok (ram', 0) ∧
    (fstat (fun _ => 1) 8292).Respects k 0 (fun _ => 0) ram' 0 := by
  obtain ⟨k, hreach, hv⟩ := Kernel.exists_reachable
    (g := fun k => (decide (k.Running 0), leafAt (k.procs 0).pagetable 0,
      (leafAt (k.procs 0).pagetable 2).map fun pte => pte.perm.w,
      copyout (k.procs 0).pagetable (UInt64.toNat 8292) 24))
    (v := (true, some demoText, some true, true)) [Kernel.demoExec] (by decide +kernel)
  obtain ⟨hrun, hv⟩ := Prod.mk.inj hv
  obtain ⟨htext, hv⟩ := Prod.mk.inj hv
  obtain ⟨hstack, hcopy⟩ := Prod.mk.inj hv
  have hperf := @fstat_perform k 0 (fun _ => 1) 8292 hcopy fun _ => 0
  have hnone : ¬ (fstat (fun _ => 1) 8292).Touches k 0 := by
    rintro ⟨j, hj, pte, hro⟩
    have hpage : (8292 + j) / pgSize = 2 := by
      have hj24 : j < 24 := hj.trans_eq List.length_ofFn
      simp only [pgSize]
      omega
    have hleaf := hro.leaf
    rw [show ((fstat (fun _ => 1) 8292).plan k 0).addr = 8292 from rfl, hpage] at hleaf
    rw [hleaf] at hstack
    exact absurd ((Option.some.inj hstack).symm.trans hro.fixed) (by decide)
  refine ⟨k, _, hreach, of_decide_eq_true hrun, ⟨htext, rfl, rfl⟩, hperf, ?_⟩
  exact (respects_iff_harmless hreach (of_decide_eq_true hrun) _ hperf).mpr
    ⟨fun j hj _ pte hro => absurd ⟨j, hj, pte, hro⟩ hnone, fun htouch => absurd htouch hnone⟩

/-- **`fstat` writes the text of a program**, and returns 0. -/
theorem fstat_writes_text : ∃ k ram', Reachable k ∧ k.Running 0 ∧ ReadOnly k 0 0 demoText ∧
    (fstat (fun _ => 1) 0).perform k 0 (fun _ => 0) = .ok (ram', 0) ∧ ram' demoText.pa = 1 := by
  obtain ⟨k, hreach, hv⟩ := Kernel.exists_reachable
    (g := fun k => (decide (k.Running 0), leafAt (k.procs 0).pagetable 0,
      copyout (k.procs 0).pagetable (UInt64.toNat 0) 24,
      (copyoutBytes (k.procs 0).pagetable (fun _ => 0) (UInt64.toNat 0)
        (List.ofFn fun _ : Fin 24 => 1)).1 demoText.pa))
    (v := (true, some demoText, true, 1)) [Kernel.demoExec] (by decide +kernel)
  obtain ⟨hrun, hv⟩ := Prod.mk.inj hv
  obtain ⟨htext, hv⟩ := Prod.mk.inj hv
  obtain ⟨hcopy, hstored⟩ := Prod.mk.inj hv
  exact ⟨k, _, hreach, of_decide_eq_true hrun, ⟨htext, rfl, rfl⟩, fstat_perform hcopy _, hstored⟩

end StoreCall

end Xv6Zig
