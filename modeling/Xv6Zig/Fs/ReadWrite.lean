/-
Xv6Zig/Fs/ReadWrite.lean

What `readi` and a store to a block do to the contents of inodes.

`readi` reads the contents and changes nothing.  A store to a block of the contents
keeps the blocks owned and the other inodes as they are.
-/
import Xv6Zig.Fs.Owns

namespace Xv6Zig

open Lib Function

variable {data : ℕ → Bytes} {d d' : Dinode} {D : ℕ → Dinode} {B B' : Blocks} {i k n off : ℕ}
variable {l : List UInt8} {src : List (Option UInt8)}

namespace Blocks

theorem bSize_pos : 0 < bSize := by decide

/-! ### Reading -/

/-- A piece of a block is a piece of the contents. -/
theorem slice_block (h : off % bSize + n ≤ bSize) :
    (data (d.ptr data (off / bSize))).slice (off % bSize) n = Bytes.slice (d.byte data) off n := by
  apply Bytes.slice_congr
  intro x hx
  have hdiv : (off + x) / bSize = off / bSize := by
    rw [Nat.add_div bSize_pos, Nat.div_eq_of_lt (show x < bSize by omega),
      Nat.mod_eq_of_lt (show x < bSize by omega), if_neg (by omega)]
    rfl
  have hmod : (off + x) % bSize = off % bSize + x := by
    rw [Nat.add_mod, Nat.mod_eq_of_lt (show x < bSize by omega), Nat.mod_eq_of_lt (by omega)]
  unfold Dinode.byte
  rw [hdiv, hmod]

theorem Owns.readLoop {fuel room : ℕ} (h : Owns B (update D i d)) (hd : d.type ≠ 0)
    (hfuel : n ≤ fuel) (hsize : off + n ≤ d.size.toNat) :
    ∃ r, readLoop fuel B d off n room = .ok (r, B, d) ∧
      (n ≤ room → r = (Bytes.slice (d.byte B.data) off n, false)) := by
  induction fuel generalizing off n room with
  | zero =>
    obtain rfl : n = 0 := by omega
    exact ⟨_, rfl, fun _ => rfl⟩
  | succ fuel ih =>
    rw [Blocks.readLoop]
    split
    · rename_i h0
      subst h0
      exact ⟨_, rfl, fun _ => rfl⟩
    · rename_i hn
      have hmax := h.size_le_self hd
      have hmod := Nat.mod_lt off bSize_pos
      have hne : d.ptr B.data (off / bSize) ≠ 0 := by
        apply h.below_self hd
        have hle := Nat.div_mul_le_self off bSize
        omega
      have hlt : off / bSize < maxFile := (Nat.div_lt_iff_lt_mul bSize_pos).mpr (by omega)
      rw [h.bmap_of_ne hd hlt hne, ok_bind]
      simp only [if_neg hne, bread_ok (h.inArea_self hd hne), ok_bind]
      generalize hm : min n (bSize - off % bSize) = m
      have hmn : m ≤ n := hm ▸ min_le_left _ _
      have hmb : m ≤ bSize - off % bSize := hm ▸ min_le_right _ _
      have hm0 : 0 < m := hm ▸ lt_min (by omega) (by omega)
      split
      · rename_i hroom
        exact ⟨_, rfl, fun hle => absurd hroom (by omega)⟩
      · have hrest : ∃ r, Blocks.readLoop fuel B d (off + m) (n - m) (room - m) = .ok (r, B, d) ∧
            (n - m ≤ room - m → r = (Bytes.slice (d.byte B.data) (off + m) (n - m), false)) :=
          ih (by omega) (by omega)
        obtain ⟨r, hr, hbytes⟩ := hrest
        rw [hr]
        refine ⟨_, rfl, fun hle => ?_⟩
        rw [hbytes (by omega), slice_block (by omega), Bytes.slice_append, Nat.add_sub_cancel' hmn]

/-- **`readi`** reads the contents and changes nothing. -/
theorem Owns.readi {room : ℕ} (h : Owns B (update D i d)) (hd : d.type ≠ 0)
    (off n : ℕ) : ∃ r, B.readi d off n room = .ok (r, B, d) ∧
      (n ≤ room → off + n < 2 ^ 32 → r = some (((d.contents B.data).drop off).take n)) := by
  unfold Blocks.readi
  rw [Dinode.contents_eq_slice, Bytes.drop_slice, Bytes.take_slice, Nat.zero_add]
  split
  · rename_i hout
    refine ⟨_, rfl, fun _ hlt => ?_⟩
    have hle : d.size.toNat - off = 0 := by omega
    rw [hle, Nat.min_zero]
    rfl
  · rename_i hin
    rw [not_or, not_lt, not_le] at hin
    have hcount : (if d.size.toNat < off + n then d.size.toNat - off else n)
        = min n (d.size.toNat - off) := by
      split <;> omega
    obtain ⟨r, hr, hbytes⟩ := @Owns.readLoop _ _ _ _ _ _ _ room h hd le_rfl
      (show off + min n (d.size.toNat - off) ≤ d.size.toNat by omega)
    simp only [hcount, hr, ok_bind]
    refine ⟨_, rfl, fun hroom _ => ?_⟩
    rw [hbytes (by omega)]
    rfl

/-! ### Writing -/

theorem Owns.congr (h : Owns B D) (hused : B'.used = B.used)
    (hptr : ∀ i, (D i).type ≠ 0 → (D i).ptr B'.data = (D i).ptr B.data) : Owns B' D := by
  refine ⟨h.excl.congr (fun b _ => by rw [hused]) ?_, hused ▸ h.head, h.size_le, ?_⟩
  · rintro ⟨i, k⟩
    unfold ptrs
    split
    · rfl
    · rename_i hi
      rw [hptr i hi]
  · intro i k hi hlt
    rw [hptr i hi]
    exact h.below hi hlt

section Store

variable (h : Owns B (update D i d)) (hd : d.type ≠ 0) (hk : k < maxFile)
  (hne : d.ptr B.data k ≠ 0) (mem : Bytes)
include h hd hk hne

/-- A block of the contents is no indirect block. -/
theorem Owns.ptr_set : d.ptr (B.set (d.ptr B.data k) mem).data = d.ptr B.data := by
  funext k'
  refine Dinode.ptr_congr (fun _ => set_data_of_ne _ _ ?_) k'
  intro heq
  rw [← @Dinode.ptr_maxFile B.data] at heq
  exact absurd (h.inj_self hd hne heq.symm) (ne_of_lt hk)

omit hk hne in
theorem Owns.apart_set : Apart D i B (B.set (d.ptr B.data k) mem) :=
  .of_data (fun _ _ hb => set_data_of_ne _ _ (hb k)) h hd

theorem Owns.store : Owns (B.set (d.ptr B.data k) mem) (update D i d) := by
  refine h.congr rfl fun j hj => ?_
  rcases eq_or_ne j i with rfl | hji
  · rw [update_self]
    exact h.ptr_set hd hk hne mem
  · rw [update_of_ne hji] at hj ⊢
    funext k'
    exact (h.apart_set hd mem j hji hj k').1

theorem Owns.byte_set (x : ℕ) : d.byte (B.set (d.ptr B.data k) mem).data x
    = if x / bSize = k then mem (x % bSize) else d.byte B.data x := by
  unfold Dinode.byte
  rw [h.ptr_set hd hk hne mem]
  split
  · rename_i heq
    rw [heq, set_data_self]
  · rename_i hx
    rw [set_data_of_ne]
    exact fun heq => hx (h.inj_self hd hne heq.symm).symm

omit hk hne in
/-- Bytes stored to one block are stored to the contents. -/
theorem Owns.byte_store {l : List UInt8} (hlt : off / bSize < maxFile)
    (hoff : d.ptr B.data (off / bSize) ≠ 0) (hl : off % bSize + l.length ≤ bSize) :
    d.byte (B.set (d.ptr B.data (off / bSize))
      ((B.data (d.ptr B.data (off / bSize))).write (off % bSize) l)).data
      = Bytes.write (d.byte B.data) off l := by
  funext x
  rw [h.byte_set hd hlt hoff]
  have hx := Nat.div_add_mod x bSize
  have ho := Nat.div_add_mod off bSize
  have hmod := Nat.mod_lt x bSize_pos
  split
  · rename_i heq
    rw [heq] at hx
    show (if _ then _ else _) = if _ then _ else _
    by_cases hin : off ≤ x ∧ x < off + l.length
    · rw [if_pos (by omega), if_pos hin]
      congr 1
      omega
    · rw [if_neg (by omega), if_neg hin]
      unfold Dinode.byte
      rw [heq]
  · rename_i hne
    refine (if_neg ?_).symm
    rintro ⟨hge, hlt'⟩
    apply hne
    rw [Nat.div_eq_iff bSize_pos, mul_comm (off / bSize)]
    omega

end Store

/-- What holds of the blocks in front of `off` and of the block of `off` holds of those in front
of the end of a piece of that block. -/
theorem forall_blocks {P : ℕ → Prop} (h : ∀ k, k * bSize < off → P k) (h0 : P (off / bSize))
    (hn : off % bSize + n ≤ bSize) (k : ℕ) (hk : k * bSize < off + n) : P k := by
  rcases Nat.lt_or_ge (k * bSize) off with hlt | hge
  · exact h k hlt
  · have hdiv := Nat.div_add_mod off bSize
    have heq : k = off / bSize := by
      apply Nat.le_antisymm
      · rw [← Nat.lt_succ_iff]
        apply Nat.lt_of_mul_lt_mul_right (a := bSize)
        rw [Nat.succ_mul, mul_comm (off / bSize)]
        omega
      · exact Nat.div_le_of_le_mul (by rwa [mul_comm])
    rw [heq]
    exact h0

/-- The size may be raised as far as there are blocks. -/
theorem Owns.resize {size : UInt32} (h : Owns B (update D i d))
    (hmax : size.toNat ≤ maxFile * bSize) (hcov : ∀ k, k * bSize < size.toNat → d.ptr B.data k ≠ 0) :
    Owns B (update D i { d with size := size }) := by
  have hptr : ∀ j, ptrs B.data (update D i { d with size := size }) j
      = ptrs B.data (update D i d) j := by
    rintro ⟨j, k⟩
    unfold ptrs
    rcases eq_or_ne j i with rfl | hj
    · simp only [update_self]
      rfl
    · simp only [update_of_ne hj]
  refine ⟨h.excl.congr (fun _ _ => rfl) hptr, h.head, fun {j} hj => ?_, fun {j k} hj hlt => ?_⟩
  · rcases eq_or_ne j i with rfl | hji
    · rw [update_self]
      exact hmax
    · have hold := h.size_le (i := j)
      rw [update_of_ne hji] at hj hold ⊢
      exact hold hj
  · rcases eq_or_ne j i with rfl | hji
    · rw [update_self] at hlt ⊢
      exact hcov k hlt
    · have hold := h.below (i := j) (k := k)
      rw [update_of_ne hji] at hj hlt hold ⊢
      exact hold hj hlt

theorem toNat_ofNat_size (h : n ≤ maxFile * bSize) : (UInt32.ofNat n).toNat = n := by
  have hmax : maxFile * bSize = 274432 := rfl
  rw [UInt32.toNat_ofNat', Nat.mod_eq_of_lt (by omega)]

theorem Grows.byte (h : Grows D i B d B' d') (hk : n / bSize < maxFile)
    (hne : d.ptr B.data (n / bSize) ≠ 0) : d'.byte B'.data n = d.byte B.data n := by
  unfold Dinode.byte
  rw [h.kept hne, h.data hk hne]

end Blocks

end Xv6Zig
