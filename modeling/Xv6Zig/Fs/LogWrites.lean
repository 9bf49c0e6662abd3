/-
Xv6Zig/Fs/LogWrites.lean

`writei`, and the blocks it gives to the log.

`bmapLogged` and its like mirror the functions of `Blocks` clause by clause and return
as well which blocks went to `log_write`, in their order; without these they are the
functions of `Blocks` (`bmapLogged_eq`).

A write ends in one of three ways: all bytes are written; there is no block for the
next one; or `copyin` fails in the middle of a block.  In the last case the bytes in
front of the failure are in the buffer of the block but are not counted, and the
block is not logged.  `Wrote` says what is then in the blocks, in the log and in the
count.
-/
import Xv6Zig.Fs.ReadWrite

namespace Xv6Zig

open Lib Function

/-- `BBLOCK(b, sb)` -/
def bblock (b : ℕ) : ℕ := b / (bSize * 8) + mkfsSuperblock.bmapstart

/-- `IBLOCK(i, sb)` -/
def iblock (i : ℕ) : ℕ := i / ipb + mkfsSuperblock.inodestart

namespace Blocks

/-- `balloc`: the bitmap and the new block, which `bzero` cleared, are logged. -/
def ballocLogged (B : Blocks) : Except FsPanic ((ℕ × Blocks) × List ℕ) := do
  let (b, B) ← B.balloc
  .ok ((b, B), if b = 0 then [] else [bblock b, b])

def addrOfLogged (B : Blocks) (d : Dinode) (k : ℕ) :
    Except FsPanic ((ℕ × Blocks × Dinode) × List ℕ) :=
  if d.addr k ≠ 0 then .ok ((d.addr k, B, d), [])
  else do
    let ((addr, B), log) ← B.ballocLogged
    if addr = 0 then .ok ((0, B, d), log) else .ok ((addr, B, d.setAddr k addr), log)

def bmapLogged (B : Blocks) (d : Dinode) (bn : ℕ) :
    Except FsPanic ((ℕ × Blocks × Dinode) × List ℕ) :=
  if bn < nDirect then B.addrOfLogged d bn
  else if bn - nDirect < nIndirect then do
    let ((ind, B, d), log) ← B.addrOfLogged d nDirect
    if ind = 0 then .ok ((0, B, d), log)
    else do
      let a ← B.bread ind
      let addr := a.load (4 * (bn - nDirect)) 4
      if addr ≠ 0 then .ok ((addr, B, d), log)
      else do
        let ((addr, B), log') ← B.ballocLogged
        if addr = 0 then .ok ((0, B, d), log ++ log')
        else
          .ok ((addr, B.set ind ((B.data ind).store (4 * (bn - nDirect)) 4 addr), d),
            log ++ log' ++ [ind])
  else .error .bmapOutOfRange

/-- The loop of `writei`. -/
def writeLoopLogged : ℕ → Blocks → Dinode → ℕ → List (Option UInt8) →
    Except FsPanic ((ℕ × Blocks × Dinode) × List ℕ)
  | 0, B, d, _, _ => .ok ((0, B, d), [])
  | fuel + 1, B, d, off, src =>
    if src = [] then .ok ((0, B, d), [])
    else do
      let ((addr, B, d), log) ← B.bmapLogged d (off / bSize)
      if addr = 0 then .ok ((0, B, d), log)
      else do
        let buf ← B.bread addr
        let m := min src.length (bSize - off % bSize)
        let got := copied (src.take m)
        let B := B.set addr (buf.write (off % bSize) got)
        if got.length < m then .ok ((0, B, d), log)
        else do
          let ((tot, B, d), log') ← writeLoopLogged fuel B d (off + m) (src.drop m)
          .ok ((m + tot, B, d), log ++ addr :: log')

/-- `writei` to the inode `i`, with its `iupdate`. -/
def writeiLogged (i : ℕ) (B : Blocks) (d : Dinode) (src : List (Option UInt8)) (off : ℕ) :
    Except FsPanic ((Option ℕ × Blocks × Dinode) × List ℕ) :=
  if d.size.toNat < off ∨ 2 ^ 32 ≤ off + src.length then .ok ((none, B, d), [])
  else if maxFile * bSize < off + src.length then .ok ((none, B, d), [])
  else do
    let ((tot, B, d), log) ← writeLoopLogged src.length B d off src
    .ok ((some tot, B,
      if d.size.toNat < off + tot then { d with size := .ofNat (off + tot) } else d),
      log ++ [iblock i])

/-! ### Without the log -/

variable {B B' B'' : Blocks} {D : ℕ → Dinode} {d d' : Dinode} {i k n b off tot : ℕ}
variable {log log' : List ℕ} {src : List (Option UInt8)}

theorem ballocLogged_eq (B : Blocks) : Prod.fst <$> B.ballocLogged = B.balloc := by
  unfold ballocLogged
  rcases B.balloc with e | ⟨b, B'⟩
  · rfl
  · rfl

theorem addrOfLogged_eq (B : Blocks) (d : Dinode) (k : ℕ) :
    Prod.fst <$> B.addrOfLogged d k = B.addrOf d k := by
  unfold addrOfLogged addrOf
  rw [← ballocLogged_eq]
  split
  · rfl
  · rcases B.ballocLogged with e | ⟨⟨b, B'⟩, log⟩
    · rfl
    · show Prod.fst <$> (if b = 0 then _ else _ : Except FsPanic _) = if b = 0 then _ else _
      split
      · rfl
      · rfl

theorem bmapLogged_eq (B : Blocks) (d : Dinode) (bn : ℕ) :
    Prod.fst <$> B.bmapLogged d bn = B.bmap d bn := by
  unfold bmapLogged bmap
  split
  · exact addrOfLogged_eq B d bn
  · split
    · rw [← addrOfLogged_eq]
      rcases B.addrOfLogged d nDirect with e | ⟨⟨ind, B₁, d₁⟩, log⟩
      · rfl
      · show Prod.fst <$> (if ind = 0 then _ else _ : Except FsPanic _) = if ind = 0 then _ else _
        split
        · rfl
        · rcases B₁.bread ind with e | a
          · rfl
          · show Prod.fst <$> (if _ ≠ 0 then _ else _ : Except FsPanic _) = if _ ≠ 0 then _ else _
            split
            · rfl
            · rw [← ballocLogged_eq]
              rcases B₁.ballocLogged with e | ⟨⟨b, B₂⟩, log'⟩
              · rfl
              · show Prod.fst <$> (if b = 0 then _ else _ : Except FsPanic _)
                  = if b = 0 then _ else _
                split
                · rfl
                · rfl
    · rfl

theorem writeLoopLogged_eq (fuel : ℕ) (B : Blocks) (d : Dinode) (off : ℕ)
    (src : List (Option UInt8)) :
    Prod.fst <$> writeLoopLogged fuel B d off src = writeLoop fuel B d off src := by
  induction fuel generalizing B d off src with
  | zero => rfl
  | succ fuel ih =>
    unfold writeLoopLogged writeLoop
    split
    · rfl
    · rw [← bmapLogged_eq]
      rcases B.bmapLogged d (off / bSize) with e | ⟨⟨addr, B₁, d₁⟩, log⟩
      · rfl
      · show Prod.fst <$> (if addr = 0 then _ else _ : Except FsPanic _) = if addr = 0 then _ else _
        split
        · rfl
        · rcases B₁.bread addr with e | buf
          · rfl
          · dsimp only [ok_bind]
            show Prod.fst <$> (if _ then _ else _ : Except FsPanic _) = if _ then _ else _
            split
            · rfl
            · rw [← ih]
              rcases writeLoopLogged fuel _ d₁ _ _ with e | ⟨⟨tot, B', d'⟩, log'⟩
              · rfl
              · rfl

theorem writeiLogged_eq (i : ℕ) (B : Blocks) (d : Dinode) (src : List (Option UInt8)) (off : ℕ) :
    Prod.fst <$> writeiLogged i B d src off = B.writei d src off := by
  unfold writeiLogged writei
  split
  · rfl
  · split
    · rfl
    · rw [← writeLoopLogged_eq]
      rcases writeLoopLogged src.length B d off src with e | ⟨⟨tot, B', d'⟩, log'⟩
      · rfl
      · rfl

/-! ### What is logged -/

theorem bblock_of_lt (h : b < fsSize) : bblock b = bblock 0 := by
  have hsize : fsSize = 2000 := rfl
  have hbits : bSize * 8 = 8192 := rfl
  unfold bblock
  rw [hbits]
  omega

/-- What is not in the log was not changed, and no block of it allocated. -/
structure Logs (B B' : Blocks) (log : List ℕ) : Prop where
  data : ∀ {b}, b ∉ log → B'.data b = B.data b
  used : bblock 0 ∉ log → B'.used = B.used
  alloc : ∀ {b}, b ∉ log → B'.used b = B.used b

namespace Logs

theorem refl (B : Blocks) : Logs B B [] := ⟨fun _ => rfl, fun _ => rfl, fun _ => rfl⟩

theorem trans (h : Logs B B' log) (h' : Logs B' B'' log') : Logs B B'' (log ++ log') := by
  constructor
  · intro b hb
    rw [List.mem_append, not_or] at hb
    rw [h'.data hb.2, h.data hb.1]
  · intro hb
    rw [List.mem_append, not_or] at hb
    rw [h'.used hb.2, h.used hb.1]
  · intro b hb
    rw [List.mem_append, not_or] at hb
    rw [h'.alloc hb.2, h.alloc hb.1]

theorem set (B : Blocks) (b : ℕ) (mem : Bytes) : Logs B (B.set b mem) [b] :=
  ⟨fun hb => set_data_of_ne B mem fun heq => hb (List.mem_singleton.mpr heq), fun _ => rfl,
    fun _ => rfl⟩

end Logs

theorem of_balloc (h : B.balloc = .ok (b, B')) :
    (b = 0 ∧ B' = B ∧ ∀ c < fsSize, B.used c = true) ∨ InArea b ∧ B.used b = false ∧ B' = ⟨update B.used b true,
      update B.data b fun _ => 0⟩ := by
  unfold balloc at h
  rcases hfind : (List.range fsSize).find? fun b => !B.used b with - | c
  · rw [hfind] at h
    cases h
    refine .inl ⟨rfl, rfl, fun c hc => ?_⟩
    simpa using List.find?_eq_none.mp hfind c (List.mem_range.mpr hc)
  · rw [hfind] at h
    dsimp only at h
    split at h
    · rename_i harea
      cases h
      exact .inr ⟨harea, by simpa using List.find?_some hfind, rfl⟩
    · cases h

theorem ballocLogged_logs (h : B.ballocLogged = .ok ((b, B'), log)) :
    (b = 0 ∧ B' = B ∧ log = []) ∨ InArea b ∧ Logs B B' log ∧ log = [bblock 0, b] := by
  obtain ⟨⟨b', B''⟩, hballoc, heq⟩ := bind_eq_ok.mp h
  obtain ⟨hb, rfl⟩ := Prod.mk.inj (Except.ok.inj heq)
  obtain ⟨rfl, rfl⟩ := Prod.mk.inj hb
  rcases of_balloc hballoc with ⟨rfl, rfl, -⟩ | ⟨harea, -, rfl⟩
  · exact .inl ⟨rfl, rfl, rfl⟩
  · rw [if_neg harea.ne_zero, bblock_of_lt harea.2]
    have hne : ∀ {b}, b ∉ [bblock 0, b'] → b ≠ b' := fun hb heq => hb (by simp [heq])
    exact .inr ⟨harea, ⟨fun hb => update_of_ne (hne hb) _ _,
      fun hb => absurd List.mem_cons_self hb, fun hb => update_of_ne (hne hb) _ _⟩, rfl⟩

theorem addrOfLogged_logs (hk : k ≤ nDirect) (h : B.addrOfLogged d k = .ok ((b, B', d'), log)) :
    b = d'.addr k ∧ Logs B B' log ∧
      (B' = B ∧ d' = d ∧ log = [] ∨ d.addr k = 0 ∧ b ≠ 0 ∧ log = [bblock 0, b]) := by
  unfold addrOfLogged at h
  split at h
  · cases h
    exact ⟨rfl, .refl _, .inl ⟨rfl, rfl, rfl⟩⟩
  · rename_i h0
    obtain ⟨⟨⟨c, B₁⟩, log₁⟩, hballoc, heq⟩ := bind_eq_ok.mp h
    dsimp only at heq
    rcases ballocLogged_logs hballoc with ⟨rfl, rfl, rfl⟩ | ⟨harea, hlogs, rfl⟩
    · rw [if_pos rfl] at heq
      cases heq
      exact ⟨(not_not.mp h0).symm, .refl _, .inl ⟨rfl, rfl, rfl⟩⟩
    · rw [if_neg harea.ne_zero] at heq
      cases heq
      refine ⟨?_, hlogs, .inr ⟨not_not.mp h0, harea.ne_zero, rfl⟩⟩
      rw [Dinode.addr_setAddr_self (Nat.lt_succ_of_le hk) harea.lt]

/-- `bmap` logs the bitmap, the indirect block and a block that was missing. -/
theorem bmapLogged_logs (h : B.bmapLogged d k = .ok ((b, B', d'), log)) :
    Logs B B' log ∧ ∀ c ∈ log, c = bblock 0 ∨
      c ≠ 0 ∧ (c = d'.addr nDirect ∨ c = b ∧ d.ptr B.data k = 0) := by
  unfold bmapLogged at h
  split at h
  · rename_i hlt
    obtain ⟨hb, hlogs, ⟨-, -, rfl⟩ | ⟨h0, hne, rfl⟩⟩ := addrOfLogged_logs hlt.le h
    · exact ⟨hlogs, nofun⟩
    · refine ⟨hlogs, fun c hc => ?_⟩
      rcases List.mem_pair.mp hc with rfl | rfl
      · exact .inl rfl
      · exact .inr ⟨hne, .inr ⟨rfl, by rw [Dinode.ptr_direct hlt, h0]⟩⟩
  · rename_i hge
    split at h
    · rename_i hin
      obtain ⟨⟨⟨ind, B₁, d₁⟩, log₁⟩, hind, h⟩ := bind_eq_ok.mp h
      obtain ⟨hb, hlogs, hwas⟩ := addrOfLogged_logs le_rfl hind
      have hlog₁ : ∀ c ∈ log₁, c = bblock 0 ∨ c ≠ 0 ∧ c = d₁.addr nDirect := by
        intro c hc
        rcases hwas with ⟨-, -, rfl⟩ | ⟨-, hne, rfl⟩
        · cases hc
        · rw [← hb]
          rcases List.mem_pair.mp hc with rfl | rfl
          · exact .inl rfl
          · exact .inr ⟨hne, rfl⟩
      dsimp only at h
      split at h
      · cases h
        exact ⟨hlogs, fun c hc => (hlog₁ c hc).imp_right (And.imp_right .inl)⟩
      · rename_i hind0
        obtain ⟨a, hread, h⟩ := bind_eq_ok.mp h
        have ha : a = B₁.data ind := by
          unfold bread at hread
          split at hread
          · exact (Except.ok.inj hread).symm
          · cases hread
        split at h
        · cases h
          exact ⟨hlogs, fun c hc => (hlog₁ c hc).imp_right (And.imp_right .inl)⟩
        · rename_i hload
          -- the place was empty before as well
          have h0 : d.ptr B.data k = 0 := by
            rw [show k = nDirect + (k - nDirect) by omega, Dinode.ptr_indirect hin]
            rcases hwas with ⟨rfl, rfl, -⟩ | ⟨hzero, -, -⟩
            · rw [← hb, if_neg hind0, ← ha]
              exact not_not.mp hload
            · rw [if_pos hzero]
          obtain ⟨⟨⟨c, B₂⟩, log₂⟩, hballoc, h⟩ := bind_eq_ok.mp h
          dsimp only at h
          rcases ballocLogged_logs hballoc with ⟨rfl, rfl, rfl⟩ | ⟨harea, hlogs₂, rfl⟩
          · rw [if_pos rfl, List.append_nil] at h
            cases h
            exact ⟨hlogs, fun c hc => (hlog₁ c hc).imp_right (And.imp_right .inl)⟩
          · rw [if_neg harea.ne_zero] at h
            cases h
            refine ⟨(hlogs.trans hlogs₂).trans (.set _ _ _), fun c hc => ?_⟩
            rcases List.mem_append.mp hc with hc | hc
            · rcases List.mem_append.mp hc with hc | hc
              · exact (hlog₁ c hc).imp_right (And.imp_right .inl)
              · rcases List.mem_pair.mp hc with rfl | rfl
                · exact .inl rfl
                · exact .inr ⟨harea.ne_zero, .inr ⟨rfl, h0⟩⟩
            · obtain rfl := List.mem_singleton.mp hc
              exact .inr ⟨hind0, .inl hb⟩
    · cases h

/-- `bmap` returns 0 only if all blocks are in use. -/
theorem bmap_zero (h : B.bmap d k = .ok (0, B', d')) : ∀ c < fsSize, B'.used c = true := by
  have haddrOf : ∀ {k d' B'}, B.addrOf d k = .ok (0, B', d') → ∀ c < fsSize, B'.used c = true := by
    intro k d' B' h
    unfold addrOf at h
    split at h
    · rename_i hne
      exact absurd (Prod.mk.inj (Except.ok.inj h)).1 hne
    · obtain ⟨⟨b, B₁⟩, hballoc, heq⟩ := bind_eq_ok.mp h
      dsimp only at heq
      rcases of_balloc hballoc with ⟨rfl, rfl, hused⟩ | ⟨harea, -, -⟩
      · rw [if_pos rfl] at heq
        cases heq
        exact hused
      · rw [if_neg harea.ne_zero] at heq
        exact absurd (Prod.mk.inj (Except.ok.inj heq)).1 harea.ne_zero
  unfold bmap at h
  split at h
  · exact haddrOf h
  · split at h
    · obtain ⟨⟨ind, B₁, d₁⟩, hind, h⟩ := bind_eq_ok.mp h
      dsimp only at h
      split at h
      · rename_i hzero
        cases h
        exact haddrOf (hzero ▸ hind)
      · obtain ⟨a, -, h⟩ := bind_eq_ok.mp h
        split at h
        · rename_i hne
          exact absurd (Prod.mk.inj (Except.ok.inj h)).1 hne
        · obtain ⟨⟨b, B₂⟩, hballoc, heq⟩ := bind_eq_ok.mp h
          dsimp only at heq
          rcases of_balloc hballoc with ⟨rfl, rfl, hused⟩ | ⟨harea, -, -⟩
          · rw [if_pos rfl] at heq
            cases heq
            exact hused
          · rw [if_neg harea.ne_zero] at heq
            exact absurd (Prod.mk.inj (Except.ok.inj heq)).1 harea.ne_zero
    · cases h

/-- A direct block leaves the indirect block alone. -/
theorem bmap_direct (hk : k < nDirect) (h : B.bmap d k = .ok (b, B', d')) :
    d'.addr nDirect = d.addr nDirect := by
  unfold bmap addrOf at h
  rw [if_pos hk] at h
  split at h
  · cases h
    rfl
  · obtain ⟨⟨b', B₁⟩, -, h⟩ := bind_eq_ok.mp h
    dsimp only at h
    split at h
    · cases h
      rfl
    · cases h
      exact Dinode.addr_setAddr_of_ne hk.ne'

/-! ### What `copyin` copies -/

theorem length_copied (src : List (Option UInt8)) :
    (copied src).length = (src.takeWhile Option.isSome).length := List.length_map _

theorem map_some_copied (src : List (Option UInt8)) :
    (copied src).map some = src.takeWhile Option.isSome := by
  unfold copied
  rw [List.map_map]
  conv_rhs => rw [← List.map_id (src.takeWhile Option.isSome)]
  apply List.map_congr_left
  intro c hc
  obtain ⟨x, rfl⟩ := Option.isSome_iff_exists.mp (List.mem_takeWhile_imp hc)
  rfl

theorem getElem?_of_copied {x : ℕ} (hx : x < (copied src).length) :
    src[x]? = some (copied src)[x]? := by
  have hsplit : src = (copied src).map some ++ src.dropWhile Option.isSome := by
    rw [map_some_copied, List.takeWhile_append_dropWhile]
  conv_lhs => rw [hsplit]
  rw [List.getElem?_append_left (by rwa [List.length_map]), List.getElem?_map,
    List.getElem?_eq_getElem hx]
  rfl

theorem length_copied_le (src : List (Option UInt8)) : (copied src).length ≤ src.length := by
  rw [length_copied]
  exact (List.takeWhile_prefix _).length_le

/-- All of the first `n` bytes are there, or the first that is not is among them. -/
theorem copied_take (hn : n ≤ src.length) :
    (copied (src.take n)).length = n ∧ copied src = copied (src.take n) ++ copied (src.drop n) ∨
      (copied (src.take n)).length < n ∧ copied src = copied (src.take n) := by
  have hlen : (src.take n).length = n := List.length_take_of_le hn
  have hle := length_copied_le (src.take n)
  have hsplit : copied src = ((src.take n ++ src.drop n).takeWhile Option.isSome).map (·.getD 0) := by
    rw [List.take_append_drop]
    rfl
  rw [List.takeWhile_append] at hsplit
  rw [hlen] at hle hsplit
  rw [length_copied] at hle ⊢
  split at hsplit
  · rename_i hall
    refine .inl ⟨hall, ?_⟩
    have hself : (src.take n).takeWhile Option.isSome = src.take n :=
      (List.takeWhile_prefix _).eq_of_length (by rw [hall, hlen])
    rw [hsplit, List.map_append]
    unfold copied
    rw [hself]
  · rename_i hshort
    exact .inr ⟨lt_of_le_of_ne hle hshort, hsplit⟩

/-! ### The loop of `writei` -/

/-- How a write of `src` ends, with `tot` bytes counted and `put` bytes in the blocks; `b` is the
block of the first byte that is not counted. -/
inductive Ended (off : ℕ) (src : List (Option UInt8)) : ℕ → ℕ → ℕ → Prop
  | all (b : ℕ) (hsrc : (copied src).length = src.length) : Ended off src src.length src.length b
  /-- there is no block left -/
  | full {tot : ℕ} (hle : tot ≤ (copied src).length) (hlt : tot < src.length)
      (hblock : tot = 0 ∨ (off + tot) % bSize = 0) : Ended off src tot tot 0
  /-- `copyin` fails -/
  | fault {tot b : ℕ} (hlt : (copied src).length < src.length) (hle : tot ≤ (copied src).length)
      (hblock : tot = 0 ∨ (off + tot) % bSize = 0)
      (hin : (copied src).length < tot + (bSize - (off + tot) % bSize)) (hb : b ≠ 0) :
      Ended off src tot (copied src).length b

theorem Ended.le {put : ℕ} (h : Ended off src tot put b) :
    tot ≤ put ∧ put ≤ (copied src).length ∧ tot ≤ src.length := by
  have hle := length_copied_le src
  rcases h with ⟨-, hsrc⟩ | ⟨htot, hlt, -⟩ | ⟨hlt, htot, -, -, -⟩
  · omega
  · omega
  · omega

theorem Ended.next {put m : ℕ} (hm : m = min src.length (bSize - off % bSize))
    (hgot : (copied (src.take m)).length = m)
    (hsrc : copied src = copied (src.take m) ++ copied (src.drop m))
    (h : Ended (off + m) (src.drop m) tot put b) : Ended off src (m + tot) (m + put) b := by
  have hlen : (copied src).length = m + (copied (src.drop m)).length := by
    rw [hsrc, List.length_append, hgot]
  have hdrop : (src.drop m).length = src.length - m := List.length_drop
  have hmod := Nat.mod_lt off bSize_pos
  have hmle : m ≤ src.length := by omega
  -- if there is more to write the next byte is the first of a block
  have hnext : tot < (src.drop m).length → (tot = 0 ∨ (off + m + tot) % bSize = 0) →
      (off + (m + tot)) % bSize = 0 := by
    intro hlt hblock
    rcases hblock with rfl | hblock
    · have hfull : m = bSize - off % bSize := by omega
      have hdiv := Nat.div_add_mod off bSize
      rw [Nat.add_zero, show off + m = bSize * (off / bSize + 1) by rw [Nat.mul_add]; omega,
        Nat.mul_mod_right]
    · rwa [← Nat.add_assoc]
  rcases h with ⟨-, hall⟩ | ⟨htot, hlt, hblock⟩ | ⟨hlt, htot, hblock, hin, hb⟩
  · rw [show m + (src.drop m).length = src.length by omega]
    exact .all b (by omega)
  · exact .full (by omega) (by omega) (.inr (hnext hlt hblock))
  · rw [← hlen]
    refine .fault (by omega) (by omega) (.inr (hnext (by omega) hblock)) ?_ hb
    rw [Nat.add_assoc] at hin
    omega

/-- **A write**: `tot` bytes are counted, `put` bytes are in the blocks. -/
structure Wrote (D : ℕ → Dinode) (i : ℕ) (B : Blocks) (d : Dinode) (off : ℕ)
    (src : List (Option UInt8)) (tot put : ℕ) (B' : Blocks) (d' : Dinode) (log : List ℕ) :
    Prop where
  owns : Owns B' (update D i d')
  same : d.SameMeta d'
  apart : Apart D i B B'
  kept : ∀ {k}, d.ptr B.data k ≠ 0 → d'.ptr B'.data k = d.ptr B.data k
  cov : ∀ k, k * bSize < off + tot → d'.ptr B'.data k ≠ 0
  bytes : ∀ x, x / bSize < maxFile ∧ d.ptr B.data (x / bSize) ≠ 0 ∨ off ≤ x ∧ x < off + put →
    d'.byte B'.data x = Bytes.write (d.byte B.data) off ((copied src).take put) x
  logged : ∀ b ∈ log, b = bblock 0 ∨ b = d'.ptr B'.data maxFile ∨
    ∃ k, off / bSize ≤ k ∧ k * bSize < off + src.length ∧ b = d'.ptr B'.data k ∧
      (0 < tot ∧ k * bSize < off + tot ∨ d.ptr B.data k = 0 ∧ k ≤ (off + tot) / bSize)
  data : ∀ {b}, b ∉ log → (tot < put → b ≠ d'.ptr B'.data ((off + tot) / bSize)) →
    B'.data b = B.data b
  used : bblock 0 ∉ log → B'.used = B.used
  alloc : ∀ {b}, b ∉ log → B'.used b = B.used b
  direct : (off + tot) / bSize < nDirect → d'.addr nDirect = d.addr nDirect
  full : tot < src.length → d'.ptr B'.data ((off + tot) / bSize) = 0 →
    ∀ c < fsSize, B'.used c = true
  ended : Ended off src tot put (d'.ptr B'.data ((off + tot) / bSize))

/-- What `bmap` of the block `k` does, and logs. -/
structure Maps (D : ℕ → Dinode) (i : ℕ) (B : Blocks) (d : Dinode) (k : ℕ) (B' : Blocks)
    (d' : Dinode) (log : List ℕ) : Prop extends Grows D i B d B' d' where
  logs : Logs B B' log
  logged : ∀ c ∈ log, c = bblock 0 ∨
    c ≠ 0 ∧ (c = d'.ptr B'.data maxFile ∨ c = d'.ptr B'.data k ∧ d.ptr B.data k = 0)
  direct : k < nDirect → d'.addr nDirect = d.addr nDirect
  full : d'.ptr B'.data k = 0 → ∀ c < fsSize, B'.used c = true

theorem Owns.bmapLogged (h : Owns B (update D i d)) (hd : d.type ≠ 0) (hk : k < maxFile) :
    ∃ B' d' log, B.bmapLogged d k = .ok ((d'.ptr B'.data k, B', d'), log) ∧
      Maps D i B d k B' d' log := by
  obtain ⟨B', d', hbmap, hgrows⟩ := h.bmap hd hk
  have hdirect : k < nDirect → d'.addr nDirect = d.addr nDirect := fun hk => bmap_direct hk hbmap
  have hfull : d'.ptr B'.data k = 0 → ∀ c < fsSize, B'.used c = true :=
    fun h0 => bmap_zero (h0 ▸ hbmap)
  rw [← bmapLogged_eq] at hbmap
  rcases hlogged : B.bmapLogged d k with e | ⟨x, log⟩
  · rw [hlogged] at hbmap
    cases hbmap
  · rw [hlogged] at hbmap
    obtain rfl : x = _ := Except.ok.inj hbmap
    obtain ⟨hlogs, hin⟩ := bmapLogged_logs hlogged
    refine ⟨B', d', log, rfl, hgrows, hlogs, ?_, hdirect, hfull⟩
    rwa [Dinode.ptr_maxFile]

/-- A block of the file is logged at its place. -/
theorem Maps.logged_place (h : Maps D i B d (off / bSize) B' d' log) (hn : 0 < n) (hb : b ∈ log) :
    b = bblock 0 ∨ b = d'.ptr B'.data maxFile ∨
      ∃ k, off / bSize ≤ k ∧ k * bSize < off + n ∧ b = d'.ptr B'.data k ∧
        (0 < tot ∧ k * bSize < off + tot ∨ d.ptr B.data k = 0 ∧ k ≤ (off + tot) / bSize) := by
  refine (h.logged b hb).imp_right fun ⟨_, hb⟩ => hb.imp_right fun ⟨heq, h0⟩ => ?_
  have hdiv := Nat.div_mul_le_self off bSize
  exact ⟨off / bSize, le_rfl, by omega, heq,
    .inr ⟨h0, Nat.div_le_div_right (Nat.le_add_right off tot)⟩⟩

theorem Wrote.nil (h : Owns B (update D i d))
    (hcov : ∀ k, k * bSize < off → d.ptr B.data k ≠ 0) : Wrote D i B d off [] 0 0 B d [] := by
  refine ⟨h, .refl d, .refl D i B, fun _ => rfl, hcov, fun x _ => ?_, nofun, fun _ _ => rfl,
    fun _ => rfl, fun _ => rfl, fun _ => rfl, nofun, .all _ rfl⟩
  rw [List.take_zero, Bytes.write_nil]

/-- A byte that has a block is there after the block has grown. -/
theorem Grows.write_byte {l : List UInt8} {x : ℕ} (h : Grows D i B d B' d')
    (hx : x / bSize < maxFile ∧ d.ptr B.data (x / bSize) ≠ 0 ∨ off ≤ x ∧ x < off + l.length) :
    Bytes.write (d'.byte B'.data) off l x = Bytes.write (d.byte B.data) off l x := by
  apply Bytes.write_congr
  exact hx.imp_left fun hx => h.byte hx.1 hx.2

theorem Maps.wrote_nothing (h : Maps D i B d (off / bSize) B' d' log)
    (hcov : ∀ k, k * bSize < off → d.ptr B.data k ≠ 0) (hsrc : 0 < src.length)
    (h0 : d'.ptr B'.data (off / bSize) = 0) : Wrote D i B d off src 0 0 B' d' log := by
  refine ⟨h.owns, h.same, h.apart, h.kept, fun k hk => ?_, fun x hx => ?_,
    fun b hb => h.logged_place hsrc hb, fun hb _ => h.logs.data hb, h.logs.used, h.logs.alloc,
    h.direct, fun _ => h.full, ?_⟩
  · rw [h.kept (hcov k hk)]
    exact hcov k hk
  · rw [List.take_zero, Bytes.write_nil]
    rcases hx with hx | hx
    · exact h.byte hx.1 hx.2
    · omega
  · rw [Nat.add_zero, h0]
    exact .full (Nat.zero_le _) hsrc (.inl rfl)

section Round

variable {B₁ : Blocks} {d₁ : Dinode} {m : ℕ}

/-- The blocks after a round that has copied `got`. -/
def putBlock (B : Blocks) (d : Dinode) (off : ℕ) (got : List UInt8) : Blocks :=
  B.set (d.ptr B.data (off / bSize))
    ((B.data (d.ptr B.data (off / bSize))).write (off % bSize) got)

theorem Maps.wrote_fault (h : Maps D i B d (off / bSize) B₁ d₁ log) (hd : d.type ≠ 0)
    (hcov : ∀ k, k * bSize < off → d.ptr B.data k ≠ 0) (hlt : off / bSize < maxFile)
    (hne : d₁.ptr B₁.data (off / bSize) ≠ 0) (hm : m = min src.length (bSize - off % bSize))
    (hgot : (copied src).length < m) :
    Wrote D i B d off src 0 (copied src).length (putBlock B₁ d₁ off (copied src)) d₁ log := by
  have hd₁ : d₁.type ≠ 0 := h.same.type ▸ hd
  have hptr : d₁.ptr (putBlock B₁ d₁ off (copied src)).data = d₁.ptr B₁.data :=
    h.owns.ptr_set hd₁ hlt hne _
  have hmod := Nat.mod_lt off bSize_pos
  refine ⟨h.owns.store hd₁ hlt hne _, h.same, h.apart.trans (h.owns.apart_set hd₁ _), ?_, ?_, ?_,
    ?_, ?_, h.logs.used, h.logs.alloc, h.direct, fun _ => ?_, ?_⟩
  · rw [hptr]
    exact h.kept
  · rw [hptr]
    intro k hk
    rw [h.kept (hcov k hk)]
    exact hcov k hk
  · intro x hx
    rw [putBlock, h.owns.byte_store hd₁ hlt hne (by omega), List.take_length]
    exact h.write_byte hx
  · rw [hptr]
    exact fun b hb => h.logged_place (by omega) hb
  · rw [hptr, Nat.add_zero]
    intro b hb htorn
    rw [← h.logs.data hb]
    rcases Nat.eq_zero_or_pos (copied src).length with hzero | hpos
    · unfold putBlock
      rw [List.length_eq_zero_iff.mp hzero, Bytes.write_nil]
      exact congrFun (update_eq_self _ _) b
    · exact set_data_of_ne _ _ (htorn hpos)
  · rw [hptr, Nat.add_zero]
    exact fun h0 => absurd h0 hne
  · rw [hptr, Nat.add_zero]
    refine .fault (by omega) (Nat.zero_le _) (.inl rfl) ?_ hne
    rw [Nat.add_zero, Nat.zero_add]
    omega

theorem Maps.wrote_next {put : ℕ} {log' : List ℕ} (h : Maps D i B d (off / bSize) B₁ d₁ log)
    (hd : d.type ≠ 0) (hlt : off / bSize < maxFile)
    (hne : d₁.ptr B₁.data (off / bSize) ≠ 0) (hm : m = min src.length (bSize - off % bSize))
    (hpos : 0 < m) (hgot : (copied (src.take m)).length = m)
    (hsrc : copied src = copied (src.take m) ++ copied (src.drop m))
    (hrest : Wrote D i (putBlock B₁ d₁ off (copied (src.take m))) d₁ (off + m) (src.drop m)
      tot put B' d' log') :
    Wrote D i B d off src (m + tot) (m + put) B' d'
      (log ++ d₁.ptr B₁.data (off / bSize) :: log') := by
  have hd₁ : d₁.type ≠ 0 := h.same.type ▸ hd
  have hptr : d₁.ptr (putBlock B₁ d₁ off (copied (src.take m))).data = d₁.ptr B₁.data :=
    h.owns.ptr_set hd₁ hlt hne _
  have hmod := Nat.mod_lt off bSize_pos
  have hdiv := Nat.div_mul_le_self off bSize
  have hdrop : (src.drop m).length = src.length - m := List.length_drop
  have hkept : ∀ {k}, d₁.ptr B₁.data k ≠ 0 → d'.ptr B'.data k = d₁.ptr B₁.data k := by
    intro k hk
    rw [← hptr] at hk ⊢
    exact hrest.kept hk
  have htake : (copied src).take (m + put)
      = copied (src.take m) ++ (copied (src.drop m)).take put := by
    rw [hsrc, List.take_append, hgot, Nat.add_sub_cancel_left, List.take_of_length_le (by omega)]
  refine ⟨hrest.owns, h.same.trans hrest.same,
    (h.apart.trans (h.owns.apart_set hd₁ _)).trans hrest.apart, ?_, ?_, ?_, ?_, ?_, ?_, ?_, ?_, ?_,
    ?_⟩
  · intro k hk
    have hk₁ := h.kept hk
    rw [hkept (hk₁ ▸ hk), hk₁]
  · rw [← Nat.add_assoc]
    exact hrest.cov
  · intro x hx
    have hmine : x / bSize < maxFile ∧ d.ptr B.data (x / bSize) ≠ 0 ∨
        off ≤ x ∧ x < off + (copied (src.take m)).length ∨ off + m ≤ x ∧ x < off + m + put := by
      omega
    have hx' : x / bSize < maxFile ∧ d₁.ptr (putBlock B₁ d₁ off (copied (src.take m))).data (x / bSize) ≠ 0 ∨
        off + m ≤ x ∧ x < off + m + put := by
      rw [hptr]
      rcases hmine with ⟨hlt', hx⟩ | hx | hx
      · exact .inl ⟨hlt', by rwa [h.kept hx]⟩
      · have hxdiv : x / bSize = off / bSize := by
          have hoff := Nat.div_add_mod off bSize
          rw [Nat.div_eq_iff bSize_pos, mul_comm (off / bSize)]
          omega
        rw [hxdiv]
        exact .inl ⟨hlt, hne⟩
      · exact .inr hx
    rw [hrest.bytes x hx', htake, ← Bytes.write_append, hgot]
    apply Bytes.write_congr
    have hput := hrest.ended.le.2.1
    rw [List.length_take, min_eq_left hput]
    rcases hmine with hx | hx | hx
    · left
      rw [putBlock, h.owns.byte_store hd₁ hlt hne (by omega)]
      exact h.write_byte (.inl hx)
    · left
      rw [putBlock, h.owns.byte_store hd₁ hlt hne (by omega)]
      exact h.write_byte (.inr hx)
    · exact .inr hx
  · intro b hb
    rcases List.mem_append.mp hb with hb | hb
    · rcases h.logged b hb with hb | ⟨hb0, rfl | ⟨rfl, hempty⟩⟩
      · exact .inl hb
      · exact .inr (.inl (hkept hb0).symm)
      · exact .inr (.inr ⟨off / bSize, le_rfl, by omega, (hkept hne).symm,
          .inl ⟨by omega, by omega⟩⟩)
    · rcases List.mem_cons.mp hb with rfl | hb
      · exact .inr (.inr ⟨off / bSize, le_rfl, by omega, (hkept hne).symm,
          .inl ⟨by omega, by omega⟩⟩)
      · rcases hrest.logged b hb with hb | hb | ⟨k, hk, hlen, rfl, hnew⟩
        · exact .inl hb
        · exact .inr (.inl hb)
        · refine .inr (.inr ⟨k, ?_, by omega, rfl, ?_⟩)
          · exact (Nat.div_le_div_right (Nat.le_add_right off m)).trans hk
          · rw [← Nat.add_assoc]
            refine hnew.imp (fun ⟨_, hlt'⟩ => ⟨by omega, hlt'⟩) fun ⟨h0, hle⟩ => ⟨?_, hle⟩
            by_contra hne'
            rw [hptr, h.kept hne'] at h0
            exact hne' h0
  · intro b hb htorn
    rw [List.mem_append, List.mem_cons, not_or, not_or] at hb
    rw [hrest.data hb.2.2 fun hput => ?_, ← h.logs.data hb.1]
    · exact set_data_of_ne _ _ hb.2.1
    · rw [Nat.add_assoc]
      exact htorn (by omega)
  · intro hb
    rw [List.mem_append, List.mem_cons, not_or, not_or] at hb
    rw [hrest.used hb.2.2, ← h.logs.used hb.1]
    rfl
  · intro b hb
    rw [List.mem_append, List.mem_cons, not_or, not_or] at hb
    rw [hrest.alloc hb.2.2, ← h.logs.alloc hb.1]
    rfl
  · rw [← Nat.add_assoc]
    intro hlt'
    rw [hrest.direct hlt', h.direct]
    exact lt_of_le_of_lt (Nat.div_le_div_right (by omega)) hlt'
  · rw [← Nat.add_assoc]
    exact fun htot => hrest.full (by omega)
  · rw [← Nat.add_assoc]
    exact .next hm hgot hsrc hrest.ended

end Round

/-- **The loop of `writei`.** -/
theorem Owns.writeLoopLogged {fuel : ℕ} (h : Owns B (update D i d)) (hd : d.type ≠ 0)
    (hfuel : src.length ≤ fuel) (hmax : off + src.length ≤ maxFile * bSize)
    (hcov : ∀ k, k * bSize < off → d.ptr B.data k ≠ 0) :
    ∃ tot put B' d' log, writeLoopLogged fuel B d off src = .ok ((tot, B', d'), log) ∧
      Wrote D i B d off src tot put B' d' log := by
  induction fuel generalizing B d off src with
  | zero =>
    obtain rfl := List.length_eq_zero_iff.mp (Nat.le_zero.mp hfuel)
    exact ⟨0, 0, B, d, [], rfl, .nil h hcov⟩
  | succ fuel ih =>
    rw [Blocks.writeLoopLogged]
    split
    · rename_i hnil
      subst hnil
      exact ⟨0, 0, B, d, [], rfl, .nil h hcov⟩
    · rename_i hsrc
      have hpos : 0 < src.length := List.length_pos_iff.mpr hsrc
      have hmod := Nat.mod_lt off bSize_pos
      have hlt : off / bSize < maxFile := (Nat.div_lt_iff_lt_mul bSize_pos).mpr (by omega)
      obtain ⟨B₁, d₁, log, hbmap, hmaps⟩ := h.bmapLogged hd hlt
      have hd₁ : d₁.type ≠ 0 := hmaps.same.type ▸ hd
      rw [hbmap, ok_bind]
      dsimp only
      by_cases h0 : d₁.ptr B₁.data (off / bSize) = 0
      · rw [if_pos h0]
        exact ⟨0, 0, B₁, d₁, log, rfl, hmaps.wrote_nothing hcov hpos h0⟩
      · rw [if_neg h0, bread_ok (hmaps.owns.inArea_self hd₁ h0), ok_bind]
        generalize hm : min src.length (bSize - off % bSize) = m
        have hmn : m ≤ src.length := hm ▸ min_le_left _ _
        rcases copied_take hmn with ⟨hgot, hall⟩ | ⟨hgot, hshort⟩
        · rw [if_neg (by omega)]
          have hptr := hmaps.owns.ptr_set hd₁ hlt h0
            ((B₁.data (d₁.ptr B₁.data (off / bSize))).write (off % bSize) (copied (src.take m)))
          have hdrop : (src.drop m).length = src.length - m := List.length_drop
          -- the next round starts in the next block or ends the loop
          obtain ⟨tot, put, B', d', log', hloop, hwrote⟩ :=
            ih (hmaps.owns.store hd₁ hlt h0
                ((B₁.data (d₁.ptr B₁.data (off / bSize))).write (off % bSize) (copied (src.take m))))
              hd₁ (show (src.drop m).length ≤ fuel by omega)
              (show off + m + (src.drop m).length ≤ maxFile * bSize by omega) (by
                rw [hptr]
                refine forall_blocks (fun k hk => ?_) h0 (by omega)
                rw [hmaps.kept (hcov k hk)]
                exact hcov k hk)
          rw [hloop]
          exact ⟨m + tot, m + put, B', d', _, rfl,
            hmaps.wrote_next hd hlt h0 hm.symm (by omega) hgot hall hwrote⟩
        · rw [if_pos hgot, ← hshort]
          exact ⟨0, _, _, d₁, log, rfl,
            hmaps.wrote_fault hd hcov hlt h0 hm.symm (by rwa [hshort])⟩

/-! ### `writei` -/

/-- The inode after a write that ended at `n`. -/
def grown (d : Dinode) (n : ℕ) : Dinode :=
  if d.size.toNat < n then { d with size := .ofNat n } else d

theorem sameKind_grown (d : Dinode) (n : ℕ) : d.SameKind (grown d n) := by
  unfold grown
  split
  · exact ⟨rfl, rfl, rfl, rfl⟩
  · exact .refl d

theorem ptr_grown (d : Dinode) (n : ℕ) : (grown d n).ptr = d.ptr := by
  unfold grown
  split
  · rfl
  · rfl

theorem size_grown (hn : n ≤ maxFile * bSize) :
    (grown d n).size.toNat = max d.size.toNat n := by
  unfold grown
  split
  · rename_i hlt
    rw [max_eq_right hlt.le]
    exact toNat_ofNat_size hn
  · rename_i hge
    exact (max_eq_left (not_lt.mp hge)).symm

theorem writeiLogged_none (h : d.size.toNat < off ∨ 2 ^ 32 ≤ off + src.length ∨
    maxFile * bSize < off + src.length) : writeiLogged i B d src off = .ok ((none, B, d), []) := by
  unfold writeiLogged
  split
  · rfl
  · rename_i hin
    exact if_pos (by omega)

section Wrote

variable (h : Owns B (update D i d)) (hd : d.type ≠ 0) (hoff : off ≤ d.size.toNat)
  (hmax : off + src.length ≤ maxFile * bSize)
include h hd hoff hmax

/-- **`writei`** that does not fail early. -/
theorem Owns.writeiLogged : ∃ tot put B' d' log,
    writeiLogged i B d src off = .ok ((some tot, B', grown d' (off + tot)), log ++ [iblock i]) ∧
      Wrote D i B d off src tot put B' d' log := by
  have hnum : maxFile * bSize = 274432 := rfl
  obtain ⟨tot, put, B', d', log, hloop, hwrote⟩ := h.writeLoopLogged hd le_rfl hmax
    fun k hk => h.below_self hd (hk.trans_le hoff)
  refine ⟨tot, put, B', d', log, ?_, hwrote⟩
  unfold Blocks.writeiLogged
  rw [if_neg (by omega), if_neg (by omega), hloop]
  rfl

variable {put : ℕ} (hw : Wrote D i B d off src tot put B' d' log)
include hw

omit h hd hoff in
theorem Wrote.end_le : off + tot ≤ maxFile * bSize := by
  have hle := hw.ended.le
  omega

omit h hd hoff in
theorem Wrote.size_grown : (grown d' (off + tot)).size.toNat = max d.size.toNat (off + tot) := by
  rw [Blocks.size_grown (hw.end_le hmax), hw.same.size]

omit h hd hoff in
theorem Wrote.owns_grown : Owns B' (update D i (grown d' (off + tot))) := by
  have hle := hw.end_le hmax
  unfold grown
  split
  · refine hw.owns.resize ?_ ?_
    · rw [toNat_ofNat_size hle]
      exact hle
    · rw [toNat_ofNat_size hle]
      exact hw.cov
  · exact hw.owns

omit hmax in
theorem Wrote.byte {x : ℕ} (hx : x < max d.size.toNat (off + tot)) :
    (grown d' (off + tot)).byte B'.data x
      = Bytes.write (d.byte B.data) off ((copied src).take put) x := by
  have hput := hw.ended.le.1
  unfold Dinode.byte
  rw [ptr_grown]
  apply hw.bytes
  rcases Nat.lt_or_ge x d.size.toNat with hlt | hge
  · have hsize := h.size_le_self hd
    refine .inl ⟨(Nat.div_lt_iff_lt_mul bSize_pos).mpr (by omega), h.below_self hd ?_⟩
    exact lt_of_le_of_lt (Nat.div_mul_le_self _ _) hlt
  · exact .inr ⟨by omega, by omega⟩

/-- **The contents after a write**, if no more is in the blocks than is counted. -/
theorem Wrote.contents (hput : put = tot) : (grown d' (off + tot)).contents B'.data
    = Bytes.overwrite (d.contents B.data) off ((copied src).take tot) := by
  subst hput
  have hlen : ((copied src).take put).length = put := by
    rw [List.length_take, min_eq_left hw.ended.le.2.1]
  rw [Dinode.contents_eq_slice, Dinode.contents_eq_slice, Bytes.overwrite_slice _ _ hoff, hlen,
    hw.size_grown hmax]
  apply Bytes.slice_congr
  intro x hx
  rw [Nat.zero_add]
  exact hw.byte h hd hoff hx

end Wrote

end Blocks

end Xv6Zig
