/-
Xv6Zig/PipeReads.lean

What a caller of `piperead` gets.

From the moment it stops waiting `piperead` holds the lock, so the rest of the call
is a function of the pipe (`readLoop`, whose rounds are those of `Pipe.lean`).  Here
the bytes it stores in user memory are kept, too.

The loop runs at most twice: up to the end of the ring, and from its start.  A chunk
that cannot be copied out as a whole ends it, and is not counted, though the bytes in
front of the first address that is not mapped are in the caller's buffer by then.  So
0 is also what a caller with a bad buffer gets.
-/
import Xv6Zig.PipeStream

namespace Xv6Zig

open Lib

namespace Pipe

/-! ### The call -/

/-- A round of the second loop of `piperead`: what it stores where, and the pipe and the call
afterwards unless the loop ends. -/
def copyRound (pi : Pipe) (r : PipeRead) : List (ℕ × UInt8) × Option (Pipe × PipeRead) :=
  if r.i < r.n.toInt then
    if asInt (sub32 pi.nwrite pi.nread) = 0 then ([], none)
    else
      let n := pi.readChunk r
      let (addrs, ok) := copyAddrs r.pagetable n (add64 r.addr r.i) n
      (addrs.zip (pi.chunk r),
        if ok then some ({ pi with nread := add32 pi.nread n }, { r with i := r.i + n }) else none)
  else ([], none)

/-- The second loop of `piperead`, of at most the given number of rounds. -/
def readLoop : ℕ → Pipe → PipeRead → Pipe × ℕ × List (ℕ × UInt8)
  | 0, pi, r => (pi, r.i, [])
  | fuel + 1, pi, r =>
    match pi.copyRound r with
    | (stores, none) => (pi, r.i, stores)
    | (stores, some (pi, r)) =>
      let (pi, i, rest) := readLoop fuel pi r
      (pi, i, stores ++ rest)

/-- `piperead` of a process that does not have to wait: what it returns, the pipe and what it
stored; `none` if it goes to sleep. -/
def piperead (pi : Pipe) (killed : Bool) (pagetable : PageTable) (addr : ℕ) (n : Int32) :
    Option (ℤ × Pipe × List (ℕ × UInt8)) :=
  if pi.nread = pi.nwrite ∧ pi.writeopen = true then
    if killed then some (-1, pi, []) else none
  else
    let (pi, i, stores) := readLoop n.toInt.toNat pi ⟨pagetable, addr, n, 0⟩
    some (i, pi, stores)

/-! ### Its two rounds -/

variable {pi : Pipe} {d a i len : ℕ} {r : PipeRead} {pt : PageTable} {addr : ℕ} {n : Int32}

/-- What a caller of `piperead` asks for and can get. -/
@[irreducible] def wanted (pi : Pipe) (n : Int32) : ℕ := min (sub32 pi.nwrite pi.nread) n.toInt.toNat

/-- The part of it that is in front of the end of the ring. -/
@[irreducible] def first (pi : Pipe) (n : Int32) : ℕ := min (pi.wanted n) (pipeSize - pi.nread % pipeSize)

section

variable (h : pi.Counted d a)

include h

namespace Counted

theorem wanted_eq : pi.wanted n = min (a - d) n.toInt.toNat := by
  unfold wanted
  rw [h.count]

theorem remaining : asInt (sub32 pi.nwrite pi.nread) = (a - d : ℕ) := by
  have hroom := h.room
  rw [h.count, asInt, if_pos]
  simp only [pipeSize] at hroom
  omega

theorem ring_eq :
    pi.ring = (List.range (a - d)).map fun j => pi.data ((d + j) % pipeSize) := by
  unfold ring
  rw [h.count]
  apply List.map_congr_left
  intro j _
  rw [Nat.add_mod, h.read_pos, ← Nat.add_mod]

theorem nread_lt : pi.nread < 2 ^ 32 := by
  rw [h.nread]
  exact Nat.mod_lt _ (by decide)

theorem advance_zero : ({ pi with nread := add32 pi.nread 0 } : Pipe) = pi := by
  rw [add32, Nat.add_zero, Nat.mod_eq_of_lt h.nread_lt]

theorem advance {k : ℕ} (hk : d + k ≤ a) :
    Counted { pi with nread := add32 pi.nread k } (d + k) a := by
  have hroom := h.room
  refine ⟨?_, h.nwrite, hk, by omega⟩
  show add32 pi.nread k = (d + k) % 2 ^ 32
  rw [h.nread, add32, Nat.mod_add_mod]

theorem ring_advance {k : ℕ} (hk : d + k ≤ a) :
    ring { pi with nread := add32 pi.nread k } = pi.ring.drop k := by
  rw [(h.advance hk).ring_eq, h.ring_eq]
  apply List.ext_getElem
  · simp only [List.length_map, List.length_range, List.length_drop]
    omega
  · intro j _ _
    simp only [List.getElem_map, List.getElem_range, List.getElem_drop, Nat.add_assoc]

theorem chunk_eq (r : PipeRead) : pi.chunk r = pi.ring.take (pi.readChunk r) := by
  obtain ⟨hwrap, hle⟩ := h.readChunk_le r
  rw [h.ring_eq, ← List.map_take, List.take_range, min_eq_left (by omega)]
  apply List.map_congr_left
  intro j hj
  rw [h.read_pos, add_mod_of_le hwrap (List.mem_range.mp hj)]

theorem readChunk_eq (hi : r.i ≤ r.n.toInt) : pi.readChunk r
    = min (min (a - d) (r.n.toInt.toNat - r.i)) (pipeSize - d % pipeSize) := by
  unfold readChunk
  simp only [h.remaining, h.read_pos]
  omega

/-- The loop ends when there is nothing to get. -/
theorem readLoop_done (hdone : min (a - d) (r.n.toInt.toNat - r.i) = 0)
    (fuel : ℕ) : readLoop fuel pi r = (pi, r.i, []) := by
  cases fuel with
  | zero => rfl
  | succ fuel =>
    have hround : pi.copyRound r = ([], none) := by
      unfold copyRound
      rw [h.remaining]
      split
      · rw [if_pos (by omega)]
      · rfl
    rw [readLoop, hround]

/-- A round of the loop that has something to get. -/
theorem copyRound_eq (hmore : min (a - d) (r.n.toInt.toNat - r.i) ≠ 0) :
    pi.copyRound r = ((reach r.pagetable (add64 r.addr r.i) (pi.readChunk r)).zip pi.ring,
      if copyout r.pagetable (add64 r.addr r.i) (pi.readChunk r) = true then
        some ({ pi with nread := add32 pi.nread (pi.readChunk r) },
          { r with i := r.i + pi.readChunk r }) else none) := by
  have hle := (reached r.pagetable (add64 r.addr r.i) (pi.readChunk r)).le
  unfold copyRound
  rw [if_pos (by omega), h.remaining, if_neg (by omega), ← zip_take_of_length_le hle,
    ← h.chunk_eq]
  simp only [copyAddrs_ok]
  rfl

/-- The loop, when what is to be got is one chunk. -/
theorem readLoop_last {k fuel : ℕ}
    (hk : min (a - d) (r.n.toInt.toNat - r.i) = k) (hwrap : k ≤ pipeSize - d % pipeSize)
    (hfuel : k ≤ fuel) :
    readLoop fuel pi r =
      if copyout r.pagetable (add64 r.addr r.i) k = true then
        ({ pi with nread := add32 pi.nread k }, r.i + k,
          (reach r.pagetable (add64 r.addr r.i) k).zip pi.ring)
      else (pi, r.i, (reach r.pagetable (add64 r.addr r.i) k).zip pi.ring) := by
  rcases Nat.eq_zero_or_pos k with rfl | hpos
  · rw [h.readLoop_done hk, h.advance_zero]
    rfl
  obtain ⟨fuel, rfl⟩ : ∃ n, fuel = n + 1 := ⟨fuel - 1, by omega⟩
  have hchunk : pi.readChunk r = k := by
    rw [h.readChunk_eq (by omega), hk]
    exact min_eq_left hwrap
  have hround := h.copyRound_eq (r := r) (by omega)
  have hafter : Counted { pi with nread := add32 pi.nread k } (d + k) a := h.advance (by omega)
  rw [hchunk] at hround
  rw [readLoop, hround]
  rcases copyout r.pagetable (add64 r.addr r.i) k with - | -
  · rfl
  · have hdone := hafter.readLoop_done (r := { r with i := r.i + k }) (by dsimp only; omega) fuel
    simp only [if_true, hdone, List.append_nil]

end Counted

/-- How many bytes a caller gets: all, those up to the end of the ring, or none. -/
@[irreducible] def served (pi : Pipe) (pt : PageTable) (addr : ℕ) (n : Int32) : ℕ :=
  if (reach pt addr (pi.wanted n)).length = pi.wanted n then pi.wanted n
  else if pi.first n ≤ (reach pt addr (pi.wanted n)).length then pi.first n
  else 0

/-- What the caller gets when all it can get is in front of the end of the ring. -/
theorem readLoop_one (haddr : addr < 2 ^ 64)
    (hone : pi.first n = pi.wanted n) :
    readLoop n.toInt.toNat pi ⟨pt, addr, n, 0⟩ =
      ({ pi with nread := add32 pi.nread (pi.served pt addr n) }, pi.served pt addr n,
        (reach pt addr (pi.wanted n)).zip pi.ring) := by
  have hiff := @length_reach_iff pt addr (pi.wanted n)
  have hwanted := (h.wanted_eq (n := n)).symm
  have hwrap : pi.wanted n ≤ pipeSize - d % pipeSize := by
    rw [← hone, first, h.read_pos]
    exact min_le_right _ _
  have hlast := h.readLoop_last (r := ⟨pt, addr, n, 0⟩) hwanted hwrap
    (hwanted ▸ min_le_right _ _)
  simp only [show add64 addr 0 = addr from Nat.mod_eq_of_lt haddr, Nat.zero_add] at hlast
  rw [hlast]
  unfold served
  split
  · rename_i hok
    rw [if_pos (hiff.mp hok)]
  · rename_i hfail
    have hshort := fun hle => hfail (hiff.mpr (le_antisymm (reached pt addr _).le hle))
    rw [if_neg (fun heq => hfail (hiff.mpr heq)), hone, if_neg hshort, h.advance_zero]

/-- The first of two chunks goes up to the end of the ring. -/
theorem first_eq (htwo : pi.first n < pi.wanted n) :
    pi.first n = pipeSize - d % pipeSize := by
  unfold first at htwo ⊢
  rw [h.read_pos] at htwo ⊢
  omega

theorem readChunk_first (htwo : pi.first n < pi.wanted n) :
    pi.readChunk ⟨pt, addr, n, 0⟩ = pi.first n := by
  have hwanted := h.wanted_eq (n := n)
  have hk := first_eq h htwo
  rw [h.readChunk_eq (by dsimp only; omega)]
  dsimp only
  omega

omit h in
theorem two_chunks {N w k q size : ℕ} (hw : w = min (a - d) N) (hk : k = size - q) (hq : q < size)
    (htwo : k < w) (hroom : a ≤ d + size) : w = k + (w - k) ∧ d + k ≤ a ∧
      min (a - (d + k)) (N - k) = w - k ∧ w - k ≤ N - 1 ∧ w - k ≤ size := by
  omega

theorem exists_rest (htwo : pi.first n < pi.wanted n) :
    ∃ rest, pi.wanted n = pi.first n + rest ∧ d + pi.first n ≤ a ∧
      min (a - (d + pi.first n)) (n.toInt.toNat - pi.first n) = rest ∧
      rest ≤ n.toInt.toNat - 1 ∧ rest ≤ pipeSize - (d + pi.first n) % pipeSize := by
  have hdpos : d % pipeSize < pipeSize := Nat.mod_lt _ (by decide)
  have hk := first_eq h htwo
  have hpos : (d + pi.first n) % pipeSize = 0 := by
    rw [hk]
    simp only [pipeSize] at hdpos ⊢
    omega
  obtain ⟨hrest, hle, hmin, hfuel, hroom⟩ := two_chunks h.wanted_eq hk hdpos htwo h.room
  exact ⟨_, hrest, hle, hmin, hfuel, by rwa [hpos, Nat.sub_zero]⟩

/-- What the caller gets when some of it lies at the start of the ring. -/
theorem readLoop_two (haddr : addr < 2 ^ 64)
    (htwo : pi.first n < pi.wanted n) :
    readLoop n.toInt.toNat pi ⟨pt, addr, n, 0⟩ =
      ({ pi with nread := add32 pi.nread (pi.served pt addr n) }, pi.served pt addr n,
        (reach pt addr (pi.wanted n)).zip pi.ring) := by
  obtain ⟨rest, hrest, hle, hmin, hfuel, hwrap⟩ := exists_rest h htwo
  have hsome : min (a - d) (n.toInt.toNat - 0) ≠ 0 := by
    rw [Nat.sub_zero, ← h.wanted_eq]
    exact Nat.ne_zero_of_lt htwo
  have hround := h.copyRound_eq (r := ⟨pt, addr, n, 0⟩) hsome
  simp only [show add64 addr 0 = addr from Nat.mod_eq_of_lt haddr, readChunk_first h htwo,
    Nat.zero_add] at hround
  obtain ⟨fuel, hn⟩ := Nat.exists_eq_succ_of_ne_zero (n := n.toInt.toNat) fun h0 => by
    rw [h0, Nat.zero_sub, Nat.min_zero] at hsome
    exact hsome rfl
  rw [hn, Nat.succ_sub_one] at hfuel
  rw [hn, Nat.succ_eq_add_one, readLoop, hround]
  rcases hcopy : copyout pt addr (pi.first n) with - | -
  · -- the first chunk fails
    have hlt : (reach pt addr (pi.first n)).length < pi.first n := by
      refine lt_of_le_of_ne (reached pt addr _).le fun heq => ?_
      rw [length_reach_iff.mpr heq] at hcopy
      cases hcopy
    have hreach : reach pt addr (pi.wanted n) = reach pt addr (pi.first n) := by
      rw [hrest]
      exact reach_of_short hcopy
    have hserved : pi.served pt addr n = 0 := by
      unfold served
      rw [hreach, if_neg (lt_trans hlt htwo).ne, if_neg (not_le.mpr hlt)]
    rw [hserved, h.advance_zero, hreach]
    rfl
  · have hlen := length_reach_iff.mp hcopy
    have hreach : reach pt addr (pi.wanted n)
        = reach pt addr (pi.first n) ++ reach pt (addr + pi.first n) rest := by
      rw [hrest]
      exact reach_add hcopy
    have hring : pi.first n ≤ pi.ring.length := by
      rw [h.ring_eq, List.length_map, List.length_range]
      exact Nat.le_sub_of_add_le' hle
    have hzip : (reach pt addr (pi.wanted n)).zip pi.ring = (reach pt addr (pi.first n)).zip pi.ring ++
        (reach pt (addr + pi.first n) rest).zip (pi.ring.drop (pi.first n)) := by
      rw [hreach]
      exact zip_append_of_le hlen hring
    have hlast := (h.advance hle).readLoop_last (r := ⟨pt, addr, n, pi.first n⟩) hmin hwrap hfuel
    simp only [h.ring_advance hle, add64_of_copyout haddr hcopy] at hlast
    have htotal : (reach pt addr (pi.wanted n)).length
        = pi.first n + (reach pt (addr + pi.first n) rest).length := by
      rw [hreach, List.length_append, hlen]
    have hiff := @length_reach_iff pt (addr + pi.first n) rest
    simp only [if_true, hlast]
    rw [hzip]
    rcases hsecond : copyout pt (addr + pi.first n) rest with - | -
    · have hne : (reach pt addr (pi.wanted n)).length ≠ pi.wanted n := by
        intro heq
        rw [htotal, hrest] at heq
        rw [hiff.mpr (Nat.add_left_cancel heq)] at hsecond
        cases hsecond
      have hserved : pi.served pt addr n = pi.first n := by
        unfold served
        rw [if_neg hne, htotal, if_pos (Nat.le_add_right _ _)]
      rw [hserved]
      rfl
    · have heq : (reach pt addr (pi.wanted n)).length = pi.wanted n := by
        rw [htotal, hiff.mp hsecond, hrest]
      have hadd : add32 (add32 pi.nread (pi.first n)) rest = add32 pi.nread (pi.wanted n) := by
        rw [hrest]
        unfold add32
        rw [Nat.mod_add_mod, Nat.add_assoc]
      have hserved : pi.served pt addr n = pi.wanted n := by
        unfold served
        exact if_pos heq
      rw [hserved]
      simp only [if_true, hadd, ← hrest]

/-- **The second loop of `piperead`.** -/
theorem readLoop_eq (haddr : addr < 2 ^ 64) :
    readLoop n.toInt.toNat pi ⟨pt, addr, n, 0⟩ =
      ({ pi with nread := add32 pi.nread (pi.served pt addr n) }, pi.served pt addr n,
        (reach pt addr (pi.wanted n)).zip pi.ring) := by
  have hle : pi.first n ≤ pi.wanted n := by
    unfold first
    exact min_le_left _ _
  rcases Nat.eq_or_lt_of_le hle with hone | htwo
  · exact readLoop_one h haddr hone
  · exact readLoop_two h haddr htwo

end

/-! ### What the caller gets -/

theorem Counted.ring_eq_nil_iff (h : pi.Counted d a) : pi.ring = [] ↔ pi.nread = pi.nwrite := by
  have hroom := h.room
  have hle := h.le
  rw [h.ring_eq, List.map_eq_nil_iff, List.range_eq_nil, h.nread, h.nwrite]
  simp only [pipeSize] at hroom
  omega

/-- What a caller gets that does not wait, with a buffer at `addr`. -/
structure Result (pi : Pipe) (pt : PageTable) (addr : ℕ) (n : Int32) (ret : ℤ) (pi' : Pipe)
    (stores : List (ℕ × UInt8)) : Prop where
  ret_eq : ret = pi.served pt addr n
  consumed : pi' = { pi with nread := add32 pi.nread (pi.served pt addr n) }
  stored : stores = (reach pt addr (pi.wanted n)).zip pi.ring
  zero_iff : ret = 0 ↔ pi.ring = [] ∧ pi.writeopen = false ∨
    (reach pt addr (pi.wanted n)).length < pi.first n

theorem served_eq_zero_iff (h : pi.Counted d a) (hn : 0 < n.toInt) : pi.served pt addr n = 0 ↔
    pi.ring = [] ∨ (reach pt addr (pi.wanted n)).length < pi.first n := by
  have hpos : 0 < pipeSize - pi.nread % pipeSize := Nat.sub_pos_of_lt (Nat.mod_lt _ (by decide))
  have hwanted : pi.wanted n = 0 ↔ pi.ring = [] := by
    rw [h.wanted_eq, h.ring_eq, List.map_eq_nil_iff, List.range_eq_nil]
    omega
  have hfirst : pi.first n = 0 ↔ pi.wanted n = 0 := by
    unfold first
    omega
  have hle : pi.first n ≤ pi.wanted n := by
    unfold first
    exact min_le_left _ _
  rw [← hwanted]
  unfold served
  split
  · omega
  · split
    · omega
    · omega

/-- **What `piperead` does**: it waits if nothing is buffered, the write end is open and the
process is not killed, and returns otherwise: -1 to a process killed in that wait, and what is
there to any other. -/
theorem piperead_result (h : pi.Counted d a) (hn : 0 < n.toInt) (haddr : addr < 2 ^ 64)
    (killed : Bool) :
    (pi.piperead killed pt addr n = none ↔
      pi.nread = pi.nwrite ∧ pi.writeopen = true ∧ killed = false) ∧
    ∀ ret pi' stores, pi.piperead killed pt addr n = some (ret, pi', stores) →
      (killed = true ∧ pi.ring = [] ∧ pi.writeopen = true ∧ ret = -1 ∧ pi' = pi ∧ stores = []) ∨
        Result pi pt addr n ret pi' stores := by
  unfold piperead
  rw [readLoop_eq h haddr]
  have hnil := h.ring_eq_nil_iff
  split
  · rename_i hwait
    cases killed with
    | true =>
      refine ⟨iff_of_false (by simp) (by simp), fun ret pi' stores hret => .inl ?_⟩
      obtain ⟨rfl, hrest⟩ := Prod.mk.inj (Option.some.inj hret)
      cases hrest
      exact ⟨rfl, hnil.mpr hwait.1, hwait.2, rfl, rfl, rfl⟩
    | false =>
      refine ⟨iff_of_true rfl ⟨hwait.1, hwait.2, rfl⟩, fun ret pi' stores hret => ?_⟩
      cases hret
  · rename_i hready
    refine ⟨iff_of_false (by simp) fun hwait => hready ⟨hwait.1, hwait.2.1⟩, ?_⟩
    intro ret pi' stores hret
    obtain ⟨rfl, hrest⟩ := Prod.mk.inj (Option.some.inj hret)
    cases hrest
    refine .inr ⟨rfl, rfl, rfl, ?_⟩
    rw [Nat.cast_eq_zero, served_eq_zero_iff h hn]
    refine or_congr_left ?_
    refine ⟨fun hempty => ⟨hempty, Bool.eq_false_of_not_eq_true fun hopen => ?_⟩, And.left⟩
    exact hready ⟨hnil.mp hempty, hopen⟩

/-- A pipe with four bytes in it. -/
def fourBytes : Pipe := ⟨fun _ => 5, 0, 4, true, true⟩

theorem fourBytes_counted : fourBytes.Counted 0 4 := ⟨rfl, rfl, by decide, by decide⟩

/-- A reader with room for two bytes gets two of four, and none of them counts. -/
theorem piperead_result_fourBytes :
    Result fourBytes PipeSys.onePage 4094 4 0 fourBytes [(0x80004FFE, 5), (0x80004FFF, 5)] := by
  have hret : fourBytes.piperead false PipeSys.onePage 4094 4
      = some (0, fourBytes, [(0x80004FFE, 5), (0x80004FFF, 5)]) := by rfl
  have hall := (piperead_result fourBytes_counted (by decide) (by decide) false).2 _ _ _ hret
  refine hall.resolve_left ?_
  rintro ⟨hkilled, -⟩
  cases hkilled

/-- **0 is no end of file**: the write end is open and bytes are there, and the reader whose buffer
is not mapped, or mapped in part, is told 0. -/
theorem piperead_zero_with_bytes :
    fourBytes.ring = [5, 5, 5, 5] ∧ fourBytes.writeopen = true ∧
      fourBytes.piperead false PipeSys.onePage 4096 4 = some (0, fourBytes, []) ∧
        fourBytes.piperead false PipeSys.onePage 4094 4
          = some (0, fourBytes, [(0x80004FFE, 5), (0x80004FFF, 5)]) := by
  refine ⟨rfl, rfl, ?_, ?_⟩
  · rfl
  · rfl

end Pipe

end Xv6Zig
