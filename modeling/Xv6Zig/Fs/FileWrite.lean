/-
Xv6Zig/Fs/FileWrite.lean

`filewrite` (`kernel/file.c`) to an inode: how much it logs, and what it accounts for.

It writes three blocks at a time, each time between a `begin_op` and an `end_op`.
Three blocks' worth of bytes touch four blocks of the file; with the bitmap, the
indirect block and the block of the inode that makes seven, whatever has to be
allocated.

The offset moves by what `writei` counts, and the loop stops when that is not all that
was asked for.  No other process writes to the file during the call.
-/
import Mathlib.Order.Interval.Finset.Nat
import Xv6Zig.Fs.FileBytes

namespace Xv6Zig

open Lib Function

/-- `max` of `filewrite`. -/
def FsSys.writeMax : ℕ := (maxOpBlocks - 1 - 1 - 2) / 2 * bSize

namespace Blocks

variable {B B' : Blocks} {D : ℕ → Dinode} {d d' : Dinode} {i n off tot put : ℕ}
variable {log : List ℕ} {src : List (Option UInt8)}

/-! ### One section -/

/-- **What a write of three blocks' worth of bytes logs.** -/
theorem Wrote.card_log (hw : Wrote D i B d off src tot put B' d' log)
    (hlen : src.length ≤ FsSys.writeMax) : (log ++ [iblock i]).toFinset.card ≤ 7 := by
  have hmax : FsSys.writeMax = 3 * bSize := rfl
  have hb : bSize = 1024 := rfl
  have hsub : (log ++ [iblock i]).toFinset ⊆ {bblock 0, d'.ptr B'.data maxFile, iblock i} ∪
      (Finset.Icc (off / bSize) (off / bSize + 3)).image (d'.ptr B'.data) := by
    intro b hb'
    rw [List.mem_toFinset, List.mem_append, List.mem_singleton] at hb'
    rcases hb' with hlog | rfl
    · rcases hw.logged b hlog with rfl | rfl | ⟨k, hk, hlt, rfl, -⟩
      · simp
      · simp
      · apply Finset.mem_union_right
        apply Finset.mem_image_of_mem
        rw [Finset.mem_Icc]
        refine ⟨hk, ?_⟩
        rw [hb] at hlt ⊢
        omega
    · simp
  calc (log ++ [iblock i]).toFinset.card
      ≤ _ := Finset.card_le_card hsub
    _ ≤ _ := Finset.card_union_le _ _
    _ ≤ 3 + 4 := by
        refine Nat.add_le_add Finset.card_le_three (Finset.card_image_le.trans ?_)
        rw [Nat.card_Icc]
        omega

/-- What was written is in front of what was not. -/
theorem Wrote.take_contents (h : Owns B (update D i d)) (hd : d.type ≠ 0)
    (hoff : off ≤ d.size.toNat) (hmax : off + src.length ≤ maxFile * bSize)
    (hw : Wrote D i B d off src tot put B' d' log) :
    ((grown d' (off + tot)).contents B'.data).take (off + tot)
      = (d.contents B.data).take off ++ (copied src).take tot := by
  obtain ⟨htot, hput, -⟩ := hw.ended.le
  have hfront : Bytes.slice ((grown d' (off + tot)).byte B'.data) 0 off
      = Bytes.slice (d.byte B.data) 0 off := by
    apply Bytes.slice_congr
    intro x hx
    rw [hw.byte h hd hoff (by omega), Bytes.write_of_lt _ (by omega)]
  have hback : Bytes.slice ((grown d' (off + tot)).byte B'.data) (0 + off) tot
      = (copied src).take tot := by
    apply List.ext_getElem
    · rw [Bytes.length_slice, List.length_take]
      omega
    · intro x hx _
      rw [Bytes.length_slice] at hx
      simp only [Bytes.slice, List.getElem_map, List.getElem_range, List.getElem_take]
      rw [Nat.zero_add, hw.byte h hd hoff (by omega),
        Bytes.write_add _ _ (by rw [List.length_take]; omega), List.getElem_take]
  rw [Dinode.contents_eq_slice, Dinode.contents_eq_slice, Bytes.take_slice, Bytes.take_slice,
    hw.size_grown hmax, min_eq_left (le_max_right _ _), min_eq_left hoff, ← Bytes.slice_append,
    hfront, hback]

end Blocks

/-! ### The loop -/

/-- An open file with its inode; `counts` are the results of the calls of `writei` and `sections`
what was logged in each of them. -/
structure Written where
  off : ℕ
  blocks : Blocks
  inode : Dinode
  counts : List (Option ℕ)
  sections : List (List ℕ)

namespace Written

open Blocks

/-- `begin_op(); .. writei(f->ip, 1, addr + i, f->off, n1) .. end_op();` -/
def round (ino : ℕ) (s : Written) (src : List (Option UInt8)) :
    Except FsPanic (Option ℕ × Written) := do
  let ((r, B, d), log) ← writeiLogged ino s.blocks s.inode src s.off
  .ok (r, ⟨s.off + r.getD 0, B, d, s.counts ++ [r], s.sections ++ [log]⟩)

/-- The loop of `filewrite`: whether it got to the end. -/
def loop (ino : ℕ) : ℕ → Written → List (Option UInt8) → Except FsPanic (Bool × Written)
  | 0, s, src => .ok (src = [], s)
  | fuel + 1, s, src =>
    if src = [] then .ok (true, s)
    else do
      let (r, s) ← s.round ino (src.take FsSys.writeMax)
      if r = some (src.take FsSys.writeMax).length then loop ino fuel s (src.drop FsSys.writeMax)
      else .ok (false, s)

/-- `filewrite` of `n` bytes from `mem`, to a file that is open for writing. -/
def filewrite (ino off : ℕ) (B : Blocks) (d : Dinode) (mem : ℕ → Option UInt8) (n : Int32) :
    Except FsPanic (ℤ × Written) := do
  let src := (List.range n.toInt.toNat).map mem
  let (done, s) ← loop ino src.length ⟨off, B, d, [], []⟩ src
  .ok (if done ∧ 0 ≤ n.toInt then n.toInt else -1, s)

/-- The contents of the file. -/
def contents (s : Written) : List UInt8 := s.inode.contents s.blocks.data

/-- What the calls of `writei` counted. -/
def total (s : Written) : ℕ := (s.counts.map fun r => r.getD 0).sum

/-- The blocks are owned. -/
def Ok (D : ℕ → Dinode) (ino : ℕ) (s : Written) : Prop :=
  Owns s.blocks (update D ino s.inode) ∧ s.inode.type ≠ 0

/-- **What a part of the call does**: `src` was asked for, and `tot` bytes of it are in the file
at the offset. -/
structure Part (src : List (Option UInt8)) (tot : ℕ) (s s' : Written) : Prop where
  total : s'.total = s.total + tot
  off : s'.off = s.off + tot
  le : tot ≤ (copied src).length
  inside : 0 < tot → s.off ≤ s.contents.length
  contents : s'.contents.take (s.off + tot) = s.contents.take s.off ++ (copied src).take tot
  sections : ∀ log ∈ s'.sections, log ∈ s.sections ∨ log.toFinset.card ≤ maxOpBlocks

variable {D : ℕ → Dinode} {ino tot : ℕ} {s s' s'' : Written} {src : List (Option UInt8)}

theorem Part.nil (s : Written) (src : List (Option UInt8)) : Part src 0 s s := by
  refine ⟨rfl, rfl, Nat.zero_le _, fun h => absurd h (lt_irrefl 0), ?_, fun log hlog => .inl hlog⟩
  rw [Nat.add_zero, List.take_zero, List.append_nil]

theorem ends_round (h : s.Ok D ino) (hlen : src.length ≤ FsSys.writeMax) (hsrc : 0 < src.length) :
    ∃ r s', s.round ino src = .ok (r, s') ∧ s'.Ok D ino ∧ Part src (r.getD 0) s s' ∧
      (r = some src.length → (copied src).length = src.length ∧
        s'.contents = Bytes.overwrite s.contents s.off (copied src)) ∧
      (r ≠ some src.length → r.getD 0 < src.length) := by
  obtain ⟨howns, hd⟩ := h
  unfold round
  by_cases hin : s.inode.size.toNat < s.off ∨ 2 ^ 32 ≤ s.off + src.length ∨
      maxFile * bSize < s.off + src.length
  · rw [writeiLogged_none hin]
    refine ⟨none, _, rfl, ⟨howns, hd⟩, ⟨?_, rfl, Nat.zero_le _, nofun, ?_, ?_⟩, nofun, fun _ => hsrc⟩
    · simp [total]
    · show s.contents.take _ = _
      simp
    · intro log hlog
      rcases List.mem_append.mp hlog with hlog | hlog
      · exact .inl hlog
      · obtain rfl := List.mem_singleton.mp hlog
        exact .inr (Nat.zero_le _)
  · have hoff : s.off ≤ s.inode.size.toNat := by omega
    have hmax : s.off + src.length ≤ maxFile * bSize := by omega
    obtain ⟨tot, put, B', d', log, hwritei, hw⟩ := howns.writeiLogged hd hoff hmax
    obtain ⟨htot, hput, hle⟩ := hw.ended.le
    rw [hwritei]
    refine ⟨some tot, _, rfl, ⟨hw.owns_grown hmax, ?_⟩, ⟨?_, rfl, htot.trans hput, fun _ => ?_, ?_, ?_⟩,
      fun hall => ?_, fun hne => ?_⟩
    · rw [(sameKind_grown d' _).type, hw.same.type]
      exact hd
    · simp [total]
    · rw [contents, Dinode.length_contents]
      exact hoff
    · exact hw.take_contents howns hd hoff hmax
    · intro log' hlog
      rcases List.mem_append.mp hlog with hlog | hlog
      · exact .inl hlog
      · obtain rfl := List.mem_singleton.mp hlog
        exact .inr ((hw.card_log hlen).trans (by decide))
    · obtain rfl : tot = src.length := Option.some.inj hall
      have hsrc' := length_copied_le src
      have hall : (copied src).length = src.length := by omega
      refine ⟨hall, ?_⟩
      show (grown d' _).contents B'.data = _
      rw [hw.contents howns hd hoff hmax (by omega), ← hall, List.take_length]
      rfl
    · exact lt_of_le_of_ne hle fun heq => hne (congrArg some heq)

theorem Part.widen {n : ℕ} (h : Part (src.take n) tot s s') (hn : n ≤ src.length) :
    Part src tot s s' := by
  have hle := h.le
  have hprefix : tot ≤ (copied src).length ∧
      (copied (src.take n)).take tot = (copied src).take tot := by
    rcases copied_take hn with ⟨-, hsrc⟩ | ⟨-, hsrc⟩
    · rw [hsrc, List.length_append, List.take_append_of_le_length hle]
      exact ⟨by omega, rfl⟩
    · rw [hsrc]
      exact ⟨hle, rfl⟩
  exact ⟨h.total, h.off, hprefix.1, h.inside, by rw [h.contents, hprefix.2], h.sections⟩

theorem Part.trans {n : ℕ} (h : Part (src.take n) n s s') (hpos : 0 < n)
    (hn : n ≤ src.length) (h' : Part (src.drop n) tot s' s'') : Part src (n + tot) s s'' := by
  have hgot : (copied (src.take n)).length = n := by
    have hle := length_copied_le (src.take n)
    rw [List.length_take] at hle
    have := h.le
    omega
  obtain ⟨-, hsrc⟩ | ⟨hlt, -⟩ := copied_take hn
  · have htake : (copied src).take (n + tot)
        = copied (src.take n) ++ (copied (src.drop n)).take tot := by
      rw [hsrc, List.take_append, hgot, Nat.add_sub_cancel_left, List.take_of_length_le (by omega)]
    have hle := h'.le
    refine ⟨?_, ?_, ?_, fun _ => h.inside hpos, ?_, fun log hlog => ?_⟩
    · rw [h'.total, h.total, Nat.add_assoc]
    · rw [h'.off, h.off, Nat.add_assoc]
    · rw [hsrc, List.length_append]
      omega
    · rw [← Nat.add_assoc, ← h.off, h'.contents, h.off, h.contents, htake, List.append_assoc,
        List.take_of_length_le (l := copied (src.take n)) (by omega)]
    · rcases h'.sections log hlog with hlog | hcard
      · exact h.sections log hlog
      · exact .inr hcard
  · omega

/-- **The loop of `filewrite`.** -/
theorem ends_loop {fuel : ℕ} (h : s.Ok D ino) (hfuel : src.length ≤ fuel) :
    ∃ done tot s', loop ino fuel s src = .ok (done, s') ∧ s'.Ok D ino ∧ Part src tot s s' ∧
      (done = true → tot = src.length ∧
        s'.contents = Bytes.overwrite s.contents s.off (copied src)) ∧
      (done = false → tot < src.length) := by
  have hnil : ∀ s : Written, s.contents = Bytes.overwrite s.contents s.off (copied []) :=
    fun s => (Bytes.overwrite_nil _ _).symm
  induction fuel generalizing s src with
  | zero =>
    obtain rfl := List.length_eq_zero_iff.mp (Nat.le_zero.mp hfuel)
    exact ⟨true, 0, s, rfl, h, .nil s _, fun _ => ⟨rfl, hnil s⟩, nofun⟩
  | succ fuel ih =>
    rw [loop]
    split
    · rename_i hsrc
      subst hsrc
      exact ⟨true, 0, s, rfl, h, .nil s _, fun _ => ⟨rfl, hnil s⟩, nofun⟩
    · rename_i hne
      have hlen : 0 < src.length := List.length_pos_iff.mpr hne
      have hmax : 0 < FsSys.writeMax := by decide
      generalize hn : min FsSys.writeMax src.length = n
      have htake : src.take FsSys.writeMax = src.take n := by
        rw [← hn, ← List.take_take, List.take_length]
      have hdrop : src.drop FsSys.writeMax = src.drop n := by
        rcases Nat.le_total FsSys.writeMax src.length with hle | hle
        · rw [← hn, min_eq_left hle]
        · rw [← hn, min_eq_right hle, List.drop_length, List.drop_eq_nil_of_le hle]
      have hsize : (src.take n).length = n := List.length_take_of_le (by omega)
      obtain ⟨r, s₁, hround, h₁, hpart, hall, hshort⟩ :=
        ends_round h (show (src.take n).length ≤ FsSys.writeMax by omega) (by omega)
      rw [hsize] at hall hshort
      rw [htake, hdrop, hround, ok_bind, hsize]
      dsimp only
      split
      · rename_i hr
        subst hr
        obtain ⟨hgot, hcontents⟩ := hall rfl
        rw [Option.getD_some] at hpart
        have hrest : (src.drop n).length = src.length - n := List.length_drop
        obtain ⟨done, tot, s', hloop, h', hpart', hdone, hstop⟩ :=
          ih h₁ (show (src.drop n).length ≤ fuel by omega)
        refine ⟨done, n + tot, s', hloop, h', hpart.trans (by omega) (by omega) hpart', ?_, ?_⟩
        · intro hd
          obtain ⟨htot, hcontents'⟩ := hdone hd
          refine ⟨by omega, ?_⟩
          obtain ⟨-, hsrc⟩ | ⟨hlt, -⟩ := copied_take (show n ≤ src.length by omega)
          · have happ := Bytes.overwrite_append (l := copied (src.take n)) (hpart.inside (by omega))
              (copied (src.drop n))
            rw [hgot] at happ
            rw [hcontents', hcontents, hpart.off, hsrc, happ]
          · omega
        · intro hd
          have := hstop hd
          omega
      · rename_i hr
        refine ⟨false, r.getD 0, s₁, rfl, h₁, hpart.widen (by omega), nofun, fun _ => ?_⟩
        have := hshort hr
        omega

/-- What `filewrite` owes to its caller and to the log. -/
structure Accounts (off : ℕ) (before : List UInt8) (mem : ℕ → Option UInt8) (n ret : ℤ)
    (s : Written) : Prop where
  budget : ∀ log ∈ s.sections, log.toFinset.card ≤ maxOpBlocks
  off_eq : s.off = off + s.total
  inside : 0 < s.total → off ≤ before.length
  written : ∀ x < s.total, mem x ≠ none ∧ s.contents[off + x]? = mem x
  front : s.contents.take off = before.take off
  ret_or : ret = n ∧ 0 ≤ n ∨ ret = -1
  whole_iff : 0 ≤ n → (ret = n ↔ s.off = off + n.toNat ∧
    ∃ l : List UInt8, (List.range n.toNat).map mem = l.map some ∧
      s.contents = Bytes.overwrite before off l)

/-- **`filewrite` keeps to its share of the log and accounts for its bytes.** -/
theorem filewrite_accounts {B : Blocks} {d : Dinode} (h : Owns B (update D ino d))
    (hd : d.type ≠ 0) (off : ℕ) (mem : ℕ → Option UInt8) (n : Int32) :
    ∃ ret s, filewrite ino off B d mem n = .ok (ret, s) ∧
      Accounts off (d.contents B.data) mem n.toInt ret s := by
  generalize hsrc : (List.range n.toInt.toNat).map mem = src
  have hlen : src.length = n.toInt.toNat := by
    rw [← hsrc, List.length_map, List.length_range]
  obtain ⟨done, tot, s, hloop, -, hpart, hdone, hstop⟩ :=
    ends_loop (show Ok D ino ⟨off, B, d, [], []⟩ from ⟨h, hd⟩) (le_refl src.length)
  obtain rfl : s.total = tot := by
    rw [hpart.total]
    exact Nat.zero_add tot
  have hle := hpart.le
  have hcopied := length_copied_le src
  have hoff : s.off = off + s.total := hpart.off
  unfold filewrite
  rw [hsrc]
  dsimp only
  rw [hloop]
  refine ⟨_, s, rfl, ?_, hoff, hpart.inside, fun x hx => ?_, ?_, ?_, fun hn => ?_⟩
  · intro log hlog
    exact (hpart.sections log hlog).resolve_left (List.not_mem_nil)
  · -- the byte is one of those that were copied
    have hin : off ≤ (d.contents B.data).length := hpart.inside (Nat.zero_lt_of_lt hx)
    have htaken : s.contents.take (off + s.total)
        = (d.contents B.data).take off ++ (copied src).take s.total := hpart.contents
    have hmem : some (copied src)[x]? = some (mem x) := by
      rw [← getElem?_of_copied (show x < (copied src).length by omega), ← hsrc, List.getElem?_map,
        List.getElem?_range (by omega)]
      rfl
    have hget : s.contents[off + x]? = (copied src)[x]? := by
      rw [← List.getElem?_take_of_lt (show off + x < off + s.total by omega), htaken,
        List.getElem?_append_right (by simp), List.length_take_of_le hin, Nat.add_sub_cancel_left,
        List.getElem?_take_of_lt hx]
    rw [← Option.some.inj hmem]
    refine ⟨?_, hget⟩
    rw [List.getElem?_eq_getElem (by omega)]
    exact Option.some_ne_none _
  · have hfront := congrArg (List.take off) hpart.contents
    rw [List.take_take, min_eq_left (Nat.le_add_right _ _)] at hfront
    rw [hfront]
    rcases Nat.eq_zero_or_pos s.total with h0 | hpos
    · rw [h0, List.take_zero, List.append_nil, List.take_take, min_self]
      rfl
    · exact List.take_left' (List.length_take_of_le (hpart.inside hpos))
  · split
    · rename_i hret
      exact .inl ⟨rfl, hret.2⟩
    · exact .inr rfl
  · cases done with
    | true =>
      rw [if_pos ⟨rfl, hn⟩]
      obtain ⟨htot, hcontents⟩ := hdone rfl
      refine ⟨fun _ => ⟨by omega, copied src, ?_, hcontents⟩, fun _ => rfl⟩
      exact hsrc.trans (copied_of_length (by omega)).symm
    | false =>
      rw [if_neg (by simp)]
      have := hstop rfl
      constructor
      · intro hret
        omega
      · rintro ⟨hoff', -⟩
        omega

/-- Two bytes are appended. -/
theorem filewrite_accounts_oneFile : ∃ s,
    filewrite 2 3 oneFileBlocks oneFile (fun _ => some 9) 2 = .ok (2, s) ∧
      s.contents = [7, 7, 7, 9, 9] ∧ s.off = 5 := by
  obtain ⟨ret, s, hwrite, hacc⟩ :=
    filewrite_accounts oneFile_owns (by decide) 3 (fun _ => some 9) 2
  have hret : (filewrite 2 3 oneFileBlocks oneFile (fun _ => some 9) 2).toOption.map Prod.fst
      = some 2 := by rfl
  rw [hwrite] at hret
  obtain rfl : ret = 2 := Option.some.inj hret
  obtain ⟨hoff, l, hl, hcontents⟩ := (hacc.whole_iff (by decide)).mp rfl
  obtain rfl : l = [9, 9] := (List.map_injective_iff.mpr (Option.some_injective _) hl).symm
  exact ⟨s, hwrite, hcontents, hoff⟩

end Written

end Xv6Zig
