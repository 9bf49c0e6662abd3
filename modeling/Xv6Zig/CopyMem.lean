/-
Xv6Zig/CopyMem.lean

`custom_memcpy`, `copyout`, `copyin` and `copyinstr` on memory (`kernel/vm.c`).

The page table is the one in memory: `walkaddr` is called for every page and
reads the entries that are there by then.  `UserTable` says which tree they are,
by their raw entries, and `userAddr` is what the tree says about one byte of the
user: the physical address, if the page is valid and the user's.

All three loops run over pages and what they do is best said in bytes: along
the range of the user's addresses up to the first one that has no physical
address (`upTo`).
-/
import Xv6Zig.Lib.UpTo
import Xv6Zig.Lib.Updates
import Xv6Zig.PageMaps

namespace Xv6Zig

open Lib Function

/-! ### `custom_memcpy` -/

/-- The first loop: until one of the two pointers is aligned. -/
def alignLoop : ℕ → Bytes → ℕ → ℕ → Bytes × ℕ × ℕ × ℕ
  | 0, mem, dst, src => (mem, dst, src, 0)
  | n + 1, mem, dst, src =>
      if dst % 8 ≠ 0 ∧ src % 8 ≠ 0 then
        alignLoop n (update mem dst (mem src)) (dst + 1) (src + 1)
      else (mem, dst, src, n + 1)

/-- The second loop: words of 64 bits. -/
def wordLoop : ℕ → Bytes → ℕ → ℕ → Bytes × ℕ × ℕ × ℕ
  | n + 8, mem, dst, src => wordLoop n (mem.store dst 8 (mem.load src 8)) (dst + 8) (src + 8)
  | n, mem, dst, src => (mem, dst, src, n)

/-- The third loop: the remaining bytes. -/
def byteLoop : ℕ → Bytes → ℕ → ℕ → Bytes
  | 0, mem, _, _ => mem
  | n + 1, mem, dst, src => byteLoop n (update mem dst (mem src)) (dst + 1) (src + 1)

/-- `custom_memcpy`: memory after it.  No loop runs for a negative `n`. -/
def customMemcpy (mem : Bytes) (dst src : ℕ) (n : Int32) : Bytes :=
  let (mem, dst, src, n) := alignLoop n.toInt.toNat mem dst src
  let (mem, dst, src, n) := wordLoop n mem dst src
  byteLoop n mem dst src

section Memcpy

variable {mem : Bytes} {dst src n k : ℕ}

theorem update_copied (h : dst + (k + 1) ≤ src ∨ src + (k + 1) ≤ dst) :
    update (mem.write dst (mem.slice src k)) (dst + k)
      (mem.write dst (mem.slice src k) (src + k)) = mem.write dst (mem.slice src (k + 1)) := by
  rw [Bytes.update_eq_write, ← Bytes.slice_one, Bytes.write_slice_add mem h]

theorem alignLoop_copied (mem : Bytes) (h : dst + (k + n) ≤ src ∨ src + (k + n) ≤ dst) :
    ∃ j ≤ n, alignLoop n (mem.write dst (mem.slice src k)) (dst + k) (src + k)
      = (mem.write dst (mem.slice src (k + j)), dst + (k + j), src + (k + j), n - j) := by
  induction n generalizing k with
  | zero => exact ⟨0, le_rfl, rfl⟩
  | succ n ih =>
    unfold alignLoop
    split
    · obtain ⟨j, hj, heq⟩ := ih (show dst + (k + 1 + n) ≤ src ∨ src + (k + 1 + n) ≤ dst by omega)
      refine ⟨j + 1, by omega, ?_⟩
      rw [update_copied (by omega), Nat.add_assoc dst, Nat.add_assoc src, heq,
        show k + 1 + j = k + (j + 1) by omega, Nat.add_sub_add_right]
    · exact ⟨0, Nat.zero_le _, rfl⟩

theorem wordLoop_of_lt (h : n < 8) : wordLoop n mem dst src = (mem, dst, src, n) := by
  unfold wordLoop
  split
  · omega
  · rfl

theorem wordLoop_copied (mem : Bytes) (h : dst + (k + n) ≤ src ∨ src + (k + n) ≤ dst) :
    ∃ j ≤ n, wordLoop n (mem.write dst (mem.slice src k)) (dst + k) (src + k)
      = (mem.write dst (mem.slice src (k + j)), dst + (k + j), src + (k + j), n - j) := by
  induction n using Nat.strong_induction_on generalizing k with
  | _ n ih =>
    by_cases hn : n < 8
    · exact ⟨0, Nat.zero_le _, wordLoop_of_lt hn⟩
    · obtain ⟨n, rfl⟩ := Nat.exists_eq_add_of_le' (not_lt.mp hn)
      obtain ⟨j, hj, heq⟩ := ih n (by omega)
        (show dst + (k + 8 + n) ≤ src ∨ src + (k + 8 + n) ≤ dst by omega)
      refine ⟨j + 8, by omega, ?_⟩
      unfold wordLoop
      rw [Bytes.store_load, Bytes.write_slice_add mem (by omega), Nat.add_assoc dst,
        Nat.add_assoc src, heq, show k + 8 + j = k + (j + 8) by omega, Nat.add_sub_add_right]

theorem byteLoop_copied (h : dst + (k + n) ≤ src ∨ src + (k + n) ≤ dst) :
    byteLoop n (mem.write dst (mem.slice src k)) (dst + k) (src + k)
      = mem.write dst (mem.slice src (k + n)) := by
  induction n generalizing k with
  | zero => rfl
  | succ n ih =>
    unfold byteLoop
    rw [update_copied (by omega), Nat.add_assoc dst, Nat.add_assoc src, ih (by omega),
      show k + 1 + n = k + (n + 1) by omega]

/-- **The three loops together copy bytes**, whatever the alignments. -/
theorem customMemcpy_eq (mem : Bytes) {n : Int32}
    (h : dst + n.toInt.toNat ≤ src ∨ src + n.toInt.toNat ≤ dst) :
    customMemcpy mem dst src n = mem.write dst (mem.slice src n.toInt.toNat) := by
  generalize hm : n.toInt.toNat = m at h
  have hnone : mem.write dst (mem.slice src 0) = mem := Bytes.write_nil mem dst
  obtain ⟨i, hi, halign⟩ := alignLoop_copied mem
    (show dst + (0 + m) ≤ src ∨ src + (0 + m) ≤ dst by omega)
  obtain ⟨j, hj, hword⟩ := wordLoop_copied mem
    (show dst + (0 + i + (m - i)) ≤ src ∨ src + (0 + i + (m - i)) ≤ dst by omega)
  rw [hnone] at halign
  show (let (mem, dst, src, n) := alignLoop n.toInt.toNat mem dst src
    let (mem, dst, src, n) := wordLoop n mem dst src
    byteLoop n mem dst src) = _
  rw [hm, show alignLoop m mem dst src = _ from halign]
  dsimp only
  rw [hword]
  dsimp only
  rw [byteLoop_copied (by omega), show 0 + i + j + (m - i - j) = m by omega]

end Memcpy

/-! ### `copyout`, `copyin` and `copyinstr` -/

namespace Heap

/-- The loop that the three functions have in common, of at most the given
number of rounds; `false` stands for -1.  A round copies the bytes of one page,
between the physical address it is given and the kernel's buffer, and tells if
that was all.  `last` is the result when the length is used up. -/
def pageLoop (round : Bytes → ℕ → ℕ → ℕ → Bytes × Bool) (last : Bool) (pagetable : ℕ) :
    ℕ → Heap → ℕ → ℕ → ℕ → Except Panic (Heap × Bool)
  | 0, s, _, _, _ => .ok (s, last)
  | fuel + 1, s, va, buf, len =>
      if len = 0 then .ok (s, last)
      else do
        let va0 := pgRoundDown va
        let pa0 ← s.walkaddr pagetable va0
        if pa0 = 0 then .ok (s, false)
        else
          let n := min (pgSize - (va - va0)) len
          let (mem, found) := round s.mem (pa0 + (va - va0)) buf n
          if found then .ok ({ s with mem := mem }, true)
          else
            pageLoop round last pagetable fuel { s with mem := mem } (add64 va0 pgSize) (buf + n)
              (len - n)

/-- `copyout`.  A round copies at least one byte, so there are at most `len`. -/
def copyout (s : Heap) (pagetable dstva src len : ℕ) : Except Panic (Heap × Bool) :=
  pageLoop (fun mem pa src n => (customMemcpy mem pa src (Int32.ofNat n), false)) true pagetable len
    s dstva src len

def copyin (s : Heap) (pagetable dst srcva len : ℕ) : Except Panic (Heap × Bool) :=
  pageLoop (fun mem pa dst n => (customMemcpy mem dst pa (Int32.ofNat n), false)) true pagetable len
    s srcva dst len

/-- The inner loop of `copyinstr`: memory and `got_null` after it.  In a round
without null `dst` and `max` move by `n`. -/
def strLoop (mem : Bytes) (p dst : ℕ) : ℕ → Bytes × Bool
  | 0 => (mem, false)
  | n + 1 =>
      if mem p = 0 then (update mem dst 0, true)
      else strLoop (update mem dst (mem p)) (p + 1) (dst + 1) n

def copyinstr (s : Heap) (pagetable dst srcva max : ℕ) : Except Panic (Heap × Bool) :=
  pageLoop strLoop false pagetable max s srcva dst max

end Heap

/-! ### The user's bytes -/

/-- The page table in memory is the tree of raw entries: null is no table, and no
leaf names page 0. -/
structure UserTable (mem : Bytes) (t : Radix 512 ℕ ℕ 2) (root : ℕ) : Prop where
  table : Table id mem t root
  page : ∀ p ∈ t.pages, p ≠ 0
  leaf : ∀ d e, t.get d = some e → pte2pa e ≠ 0

/-- The page of an address is valid and the user's. -/
def UserMapped (t : Radix 512 ℕ ℕ 2) (va : ℕ) : Prop :=
  va < maxVA ∧ ∃ e, t.get (px va) = some e ∧ e &&& pteU ≠ 0

/-- The physical address of the byte that the user has at `va`. -/
def userAddr (t : Radix 512 ℕ ℕ 2) (va : ℕ) : Option ℕ :=
  if maxVA ≤ va then none
  else
    match t.get (px va) with
    | none => none
    | some e => if e &&& pteU = 0 then none else some (pte2pa e + va % pgSize)

variable {t : Radix 512 ℕ ℕ 2} {root va : ℕ} {s : Heap} {mem mem' : Bytes}

theorem userAddr_ne_none : userAddr t va ≠ none ↔ UserMapped t va := by
  unfold userAddr UserMapped
  by_cases hva : maxVA ≤ va
  · rw [if_pos hva]
    exact ⟨fun h => absurd rfl h, fun h => absurd h.1 (not_lt.mpr hva)⟩
  · rw [if_neg hva]
    rcases t.get (px va) with - | e
    · simp
    · by_cases hu : e &&& pteU = 0
      · simp [hu]
      · simp [hu, not_le.mp hva]

theorem pgRoundDown_add {j : ℕ} (hj : j < pgSize - (va - pgRoundDown va)) :
    (va + j) / pgSize = va / pgSize ∧ (va + j) % pgSize = va - pgRoundDown va + j := by
  simp only [pgRoundDown, pgSize] at hj ⊢
  omega

/-- What `walkaddr` finds for a page, and what that says about its bytes. -/
theorem UserTable.walkaddr (h : UserTable s.mem t root) (va : ℕ) :
    (s.walkaddr root (pgRoundDown va) = .ok 0 ∧ userAddr t va = none) ∨
    ∃ pa ≠ 0, s.walkaddr root (pgRoundDown va) = .ok pa ∧ va < maxVA ∧
      ∀ j < pgSize - (va - pgRoundDown va),
        userAddr t (va + j) = some (pa + (va - pgRoundDown va) + j) := by
  have hpage : pgRoundDown va / pgSize = va / pgSize := Nat.mul_div_cancel _ pgSize_pos
  have hlegal : pgRoundDown va < maxVA ↔ va < maxVA := by rw [lt_maxVA_iff, hpage, ← lt_maxVA_iff]
  rw [s.walkaddr_eq]
  by_cases hva : va < maxVA
  · rw [h.table.translate_eq h.page (hlegal.mpr hva), Option.map_id, id,
      show px (pgRoundDown va) = px va from px_page va]
    -- all bytes of the page have its entry
    have hbyte : ∀ j < pgSize - (va - pgRoundDown va), userAddr t (va + j) =
        match t.get (px va) with
        | none => none
        | some e =>
            if e &&& pteU = 0 then none else some (pte2pa e + (va - pgRoundDown va + j)) := by
      intro j hj
      obtain ⟨hdiv, hmod⟩ := pgRoundDown_add hj
      unfold userAddr
      rw [if_neg (not_le.mpr (lt_maxVA_iff.mpr (hdiv ▸ lt_maxVA_iff.mp hva))), hmod,
        ← px_page (va + j), hdiv, px_page]
    have hpos : 0 < pgSize - (va - pgRoundDown va) := by
      simp only [pgRoundDown, pgSize]
      omega
    have hfirst := hbyte 0 hpos
    rw [Nat.add_zero] at hfirst
    rcases hget : t.get (px va) with - | e
    · rw [hget] at hfirst
      exact .inl ⟨rfl, hfirst⟩
    · simp only [hget] at hbyte hfirst ⊢
      by_cases hu : e &&& pteU = 0
      · rw [if_pos hu] at hfirst
        rw [if_pos hu]
        exact .inl ⟨rfl, hfirst⟩
      · rw [if_neg hu]
        refine .inr ⟨pte2pa e, h.leaf _ e hget, rfl, hva, fun j hj => ?_⟩
        rw [hbyte j hj, if_neg hu, Nat.add_assoc]
  · left
    unfold Heap.translate Heap.walk userAddr
    rw [if_pos (not_lt.mp hva), if_pos (not_lt.mp fun hlt => hva (hlegal.mp hlt))]
    exact ⟨rfl, rfl⟩

theorem UserTable.congr (h : UserTable mem t root) (hsame : SameOn mem mem' t.pages) :
    UserTable mem' t root :=
  ⟨h.table.congr hsame, h.page, h.leaf⟩

/-! ### Apart -/

/-- No byte of the user is one of the first `k` of a buffer of the kernel. -/
def NotUser (t : Radix 512 ℕ ℕ 2) (buf k : ℕ) : Prop :=
  ∀ j < k, ∀ a p, userAddr t a = some p → p ≠ buf + j

/-- The first `k` bytes of a buffer lie on no page table. -/
def NotTable (t : Radix 512 ℕ ℕ 2) (buf k : ℕ) : Prop :=
  ∀ j < k, ∀ q ∈ t.pages, ¬ (q ≤ buf + j ∧ buf + j < q + pgSize)

/-- The user has no page table. -/
def TablesHidden (t : Radix 512 ℕ ℕ 2) : Prop :=
  ∀ a p, userAddr t a = some p → ∀ q ∈ t.pages, ¬ (q ≤ p ∧ p < q + pgSize)

variable {buf k n b : ℕ}

theorem NotUser.drop (h : NotUser t buf (n + k)) : NotUser t (buf + n) k := by
  intro j hj a p ha
  rw [Nat.add_assoc]
  exact h (n + j) (by omega) a p ha

theorem NotTable.drop (h : NotTable t buf (n + k)) : NotTable t (buf + n) k := by
  intro j hj
  rw [Nat.add_assoc]
  exact h (n + j) (by omega)

theorem NotUser.disjoint (h : NotUser t buf k) (hn : n ≤ k)
    (hpage : ∀ j < n, userAddr t (va + j) = some (b + j)) : b + n ≤ buf ∨ buf + n ≤ b := by
  by_contra hmeet
  rcases Nat.le_total b buf with hle | hle
  · exact h 0 (by omega) _ _ (hpage (buf - b) (by omega)) (by omega)
  · exact h (b - buf) (by omega) _ _ (hpage 0 (by omega)) (by omega)

theorem sameOn_write {l : List UInt8} {ps : List ℕ}
    (h : ∀ j < l.length, ∀ q ∈ ps, ¬ (q ≤ b + j ∧ b + j < q + pgSize)) :
    SameOn mem (mem.write b l) ps := by
  intro q hq x h₁ h₂
  apply if_neg
  rintro ⟨hle, hlt⟩
  apply h (x - b) (by omega) q hq
  omega

/-! ### One round -/

theorem round_le (va : ℕ) {len : ℕ} (hlen : len ≠ 0) :
    0 < min (pgSize - (va - pgRoundDown va)) len ∧
      min (pgSize - (va - pgRoundDown va)) len ≤ pgSize := by
  simp only [pgRoundDown, pgSize]
  omega

theorem pageLoop_zero (round : Bytes → ℕ → ℕ → ℕ → Bytes × Bool) (last : Bool) (s : Heap)
    (root fuel va buf : ℕ) : Heap.pageLoop round last root fuel s va buf 0 = .ok (s, last) := by
  cases fuel with
  | zero => rfl
  | succ fuel => rfl

/-- The next round starts where this one stopped, if there is one. -/
theorem pageLoop_next (round : Bytes → ℕ → ℕ → ℕ → Bytes × Bool) (last : Bool) (s : Heap)
    (root fuel buf len : ℕ) (hva : va < maxVA) :
    Heap.pageLoop round last root fuel s (add64 (pgRoundDown va) pgSize) buf
        (len - min (pgSize - (va - pgRoundDown va)) len)
      = Heap.pageLoop round last root fuel s (va + min (pgSize - (va - pgRoundDown va)) len) buf
        (len - min (pgSize - (va - pgRoundDown va)) len) := by
  by_cases hrest : len - min (pgSize - (va - pgRoundDown va)) len = 0
  · rw [hrest, pageLoop_zero, pageLoop_zero]
  · have hnext : add64 (pgRoundDown va) pgSize
        = va + min (pgSize - (va - pgRoundDown va)) len := by
      simp only [pgRoundDown, pgSize, add64, maxVA] at *
      omega
    rw [hnext]

/-- What a loop means: `means mem va buf len` is memory and the result after it,
if `ok` holds before. -/
structure Means (t : Radix 512 ℕ ℕ 2) (round : Bytes → ℕ → ℕ → ℕ → Bytes × Bool) (last : Bool)
    (ok : Bytes → ℕ → ℕ → ℕ → Prop) (means : Bytes → ℕ → ℕ → ℕ → Bytes × Bool) : Prop where
  zero : ∀ mem va buf, means mem va buf 0 = (mem, last)
  none : ∀ mem va buf len, len ≠ 0 → userAddr t va = none → means mem va buf len = (mem, false)
  page : ∀ {mem va buf len b n}, ok mem va buf len → n ≤ len → n ≤ pgSize →
    (∀ j < n, userAddr t (va + j) = some (b + j)) →
    SameOn mem (round mem b buf n).1 t.pages ∧
      (if (round mem b buf n).2 = true then means mem va buf len = round mem b buf n
       else means mem va buf len = means (round mem b buf n).1 (va + n) (buf + n) (len - n) ∧
        ok (round mem b buf n).1 (va + n) (buf + n) (len - n))

/-- **A loop over pages does what it means.** -/
theorem Means.pageLoop {round : Bytes → ℕ → ℕ → ℕ → Bytes × Bool} {last : Bool}
    {ok : Bytes → ℕ → ℕ → ℕ → Prop} {means : Bytes → ℕ → ℕ → ℕ → Bytes × Bool} {len fuel : ℕ}
    (hm : Means t round last ok means) (hlen : len ≤ fuel) (h : UserTable s.mem t root)
    (hok : ok s.mem va buf len) :
    Heap.pageLoop round last root fuel s va buf len
      = .ok (⟨(means s.mem va buf len).1, s.freelist⟩, (means s.mem va buf len).2) := by
  induction fuel generalizing s va buf len with
  | zero =>
    obtain rfl := Nat.le_zero.mp hlen
    rw [pageLoop_zero, hm.zero]
  | succ fuel ih =>
    by_cases hzero : len = 0
    · rw [hzero, pageLoop_zero, hm.zero]
    unfold Heap.pageLoop
    rw [if_neg hzero]
    dsimp only
    rcases h.walkaddr va with ⟨hw, hnone⟩ | ⟨pa, hpa, hw, hva, hpage⟩
    · rw [hw]
      dsimp only [ok_bind]
      rw [if_pos rfl, hm.none _ _ _ _ hzero hnone]
    · rw [hw]
      dsimp only [ok_bind]
      rw [if_neg hpa, pageLoop_next _ _ _ _ _ _ _ hva]
      obtain ⟨hpos, hle⟩ := round_le va hzero
      have hn := min_le_right (pgSize - (va - pgRoundDown va)) len
      have hbyte := fun j hj => hpage j (lt_of_lt_of_le hj (min_le_left _ len))
      generalize min (pgSize - (va - pgRoundDown va)) len = n at hpos hle hn hbyte ⊢
      generalize pa + (va - pgRoundDown va) = b at hbyte ⊢
      obtain ⟨hsame, hmeans⟩ := hm.page hok hn hle hbyte
      cases hfound : (round s.mem b buf n).2 with
      | true =>
        rw [if_pos hfound] at hmeans
        rw [if_pos rfl, hmeans, hfound]
      | false =>
        rw [if_neg (hfound ▸ Bool.false_ne_true)] at hmeans
        rw [if_neg Bool.false_ne_true, ih (by omega) (h.congr hsame) hmeans.2, hmeans.1]

theorem toInt_ofNat_page (h : n ≤ pgSize) : (Int32.ofNat n).toInt.toNat = n := by
  unfold pgSize at h
  rw [Int32.toInt_ofNat_of_lt (by omega), Int.toNat_natCast]

theorem customMemcpy_page {dst src : ℕ} (hn : n ≤ pgSize) (h : dst + n ≤ src ∨ src + n ≤ dst) :
    customMemcpy mem dst src (Int32.ofNat n) = mem.write dst (mem.slice src n) := by
  have hint := toInt_ofNat_page hn
  rw [customMemcpy_eq mem (by rwa [hint]), hint]

/-- A range whose first `n` bytes lie on a page. -/
theorem upTo_page {len : ℕ} (hn : n ≤ len)
    (hpage : ∀ j < n, userAddr t (va + j) = some (b + j)) :
    upTo (userAddr t) va len
      = List.range' b n ++ upTo (userAddr t) (va + n) (len - n) := by
  have hsome : ∀ j < n, userAddr t (va + j) ≠ none := by
    intro j hj
    rw [hpage j hj]
    exact Option.some_ne_none _
  have hadd := upTo_add (len - n) hsome
  rw [Nat.add_sub_cancel' hn, upTo_range' hpage] at hadd
  exact hadd

theorem map_range'_eq_slice (mem : Bytes) (b n : ℕ) :
    (List.range' b n).map mem = mem.slice b n := by
  apply List.ext_getElem
  · simp
  · intro i _ _
    simp only [Bytes.slice, List.getElem_map, List.getElem_range', List.getElem_range, Nat.one_mul]

/-- To write bytes is to update one after the other. -/
theorem write_eq_applyUpdates (mem : Bytes) (b : ℕ) (l : List UInt8) :
    mem.write b l = applyUpdates mem ((List.range' b l.length).zip l) := by
  induction l generalizing mem b with
  | nil => exact Bytes.write_nil mem b
  | cons y l ih =>
    rw [Bytes.write_cons]
    exact ih (update mem b y) (b + 1)

/-! ### `copyout` -/

section Copyout

variable {src len : ℕ}

/-- What `copyout` leaves in memory. -/
def copiedOut (t : Radix 512 ℕ ℕ 2) (mem : Bytes) (va src len : ℕ) : Bytes :=
  let addrs := upTo (userAddr t) va len
  applyUpdates mem (addrs.zip (mem.slice src addrs.length))

/-- The bytes of a page and those that follow. -/
theorem copiedOut_page (hn : n ≤ len) (hpage : ∀ j < n, userAddr t (va + j) = some (b + j))
    (hbuf : NotUser t src (upTo (userAddr t) va len).length) :
    copiedOut t (mem.write b (mem.slice src n)) (va + n) (src + n) (len - n)
      = copiedOut t mem va src len := by
  unfold copiedOut
  rw [upTo_page hn hpage] at hbuf ⊢
  dsimp only
  rw [List.length_append, List.length_range'] at hbuf ⊢
  -- the buffer of the rest is not what was written
  have hslice : ∀ k, NotUser t src (n + k) → (mem.write b (mem.slice src n)).slice (src + n) k
      = mem.slice (src + n) k := by
    intro k hk
    apply Bytes.slice_congr
    intro i hi
    apply if_neg
    rw [Bytes.length_slice]
    rintro ⟨hle, hlt⟩
    apply hk (n + i) (by omega) _ _ (hpage (src + n + i - b) (by omega))
    omega
  have hlen : (List.range' b n).length = (mem.slice src n).length := by
    rw [List.length_range', Bytes.length_slice]
  rw [hslice _ hbuf, ← Bytes.slice_append, List.zip_append hlen, applyUpdates_append,
    write_eq_applyUpdates, Bytes.length_slice]

/-- **`copyout` byte by byte.** -/
theorem Heap.copyout_eq (hhidden : TablesHidden t) (h : UserTable s.mem t root)
    (hbuf : NotUser t src (upTo (userAddr t) va len).length) :
    s.copyout root va src len = .ok (⟨copiedOut t s.mem va src len, s.freelist⟩,
      decide ((upTo (userAddr t) va len).length = len)) := by
  have hm : Means t (fun mem pa src n => (customMemcpy mem pa src (Int32.ofNat n), false)) true
      (fun _ va src len => NotUser t src (upTo (userAddr t) va len).length)
      (fun mem va src len => (copiedOut t mem va src len,
        decide ((upTo (userAddr t) va len).length = len))) := by
    constructor
    · exact fun _ _ _ => rfl
    · intro mem va src len hlen hnone
      unfold copiedOut
      rw [upTo_of_none len hnone, decide_eq_false fun heq => hlen heq.symm]
      rfl
    · intro mem va src len b n hbuf hn hle hpage
      have hlength : (upTo (userAddr t) va len).length
          = n + (upTo (userAddr t) (va + n) (len - n)).length := by
        rw [upTo_page hn hpage, List.length_append, List.length_range']
      dsimp only
      rw [customMemcpy_page hle (hbuf.disjoint (by omega) hpage), if_neg Bool.false_ne_true]
      refine ⟨sameOn_write fun j hj => ?_, ?_, (hlength ▸ hbuf).drop⟩
      · rw [Bytes.length_slice] at hj
        exact hhidden _ _ (hpage j hj)
      · rw [copiedOut_page hn hpage hbuf, Prod.mk.injEq, decide_eq_decide]
        exact ⟨rfl, by omega⟩
  exact hm.pageLoop le_rfl h hbuf

end Copyout

/-! ### `copyin` -/

section Copyin

variable {dst len : ℕ}

/-- The user's bytes, as far as there are any. -/
def userBytes (t : Radix 512 ℕ ℕ 2) (mem : Bytes) (va len : ℕ) : List UInt8 :=
  (upTo (userAddr t) va len).map mem

theorem length_userBytes (t : Radix 512 ℕ ℕ 2) (mem : Bytes) (va len : ℕ) :
    (userBytes t mem va len).length = (upTo (userAddr t) va len).length :=
  List.length_map _

theorem userBytes_of_none (mem : Bytes) (len : ℕ) (h : userAddr t va = none) :
    userBytes t mem va len = [] := by
  unfold userBytes
  rw [upTo_of_none len h]
  rfl

theorem userBytes_page (mem : Bytes) (hn : n ≤ len) (hpage : ∀ j < n, userAddr t (va + j) = some (b + j)) :
    userBytes t mem va len = mem.slice b n ++ userBytes t mem (va + n) (len - n) := by
  unfold userBytes
  rw [upTo_page hn hpage, List.map_append, map_range'_eq_slice]

/-- The user does not see what is written to a buffer. -/
theorem userBytes_write {l : List UInt8} (h : NotUser t buf l.length) (va len : ℕ) :
    userBytes t (mem.write buf l) va len = userBytes t mem va len := by
  apply List.map_congr_left
  intro p hp
  obtain ⟨i, -, hi⟩ := mem_upTo hp
  apply if_neg
  rintro ⟨hle, hlt⟩
  exact h (p - buf) (by omega) _ _ hi (by omega)

/-- A buffer the kernel may write `k` bytes to. -/
def Buffer (t : Radix 512 ℕ ℕ 2) (buf k : ℕ) : Prop := NotUser t buf k ∧ NotTable t buf k

theorem Buffer.page {l : List UInt8} (h : Buffer t buf (n + l.length)) (mem : Bytes) :
    SameOn mem (mem.write buf (mem.slice b n)) t.pages ∧
      (∀ va len, userBytes t (mem.write buf (mem.slice b n)) va len = userBytes t mem va len) ∧
      (mem.write buf (mem.slice b n)).write (buf + n) l = mem.write buf (mem.slice b n ++ l) ∧
      Buffer t (buf + n) l.length := by
  have hlen : (mem.slice b n).length = n := Bytes.length_slice mem b n
  have happend := Bytes.write_append mem buf (mem.slice b n) l
  rw [hlen] at happend
  refine ⟨sameOn_write fun j hj => h.2 j (by omega), fun va len => ?_, happend, h.1.drop, h.2.drop⟩
  exact userBytes_write (fun j hj => h.1 j (by omega)) va len

/-- **`copyin` byte by byte.** -/
theorem Heap.copyin_eq (h : UserTable s.mem t root)
    (hbuf : Buffer t dst (userBytes t s.mem va len).length) :
    s.copyin root dst va len = .ok (⟨s.mem.write dst (userBytes t s.mem va len), s.freelist⟩,
      decide ((userBytes t s.mem va len).length = len)) := by
  have hm : Means t (fun mem pa dst n => (customMemcpy mem dst pa (Int32.ofNat n), false)) true
      (fun mem va dst len => Buffer t dst (userBytes t mem va len).length)
      (fun mem va dst len => (mem.write dst (userBytes t mem va len),
        decide ((userBytes t mem va len).length = len))) := by
    constructor
    · intro mem va dst
      exact Prod.ext (Bytes.write_nil mem dst) rfl
    · intro mem va dst len hlen hnone
      rw [userBytes_of_none mem len hnone, Bytes.write_nil, decide_eq_false fun heq => hlen heq.symm]
    · intro mem va dst len b n hbuf hn hle hpage
      have hsplit := userBytes_page mem hn hpage
      rw [hsplit, List.length_append, Bytes.length_slice] at hbuf
      obtain ⟨hsame, hrest, happend, hbuf'⟩ := hbuf.page mem (b := b)
      dsimp only
      rw [customMemcpy_page hle (hbuf.1.disjoint (by omega) hpage).symm, if_neg Bool.false_ne_true,
        hrest, happend, ← hsplit, Prod.mk.injEq, decide_eq_decide, hsplit, List.length_append,
        Bytes.length_slice]
      exact ⟨hsame, ⟨rfl, by omega⟩, hbuf'⟩
  exact hm.pageLoop le_rfl h hbuf

end Copyin

/-! ### `copyinstr` -/

/-- The bytes up to the first null, with it. -/
def upToNull : List UInt8 → List UInt8
  | [] => []
  | x :: l => if x = 0 then [0] else x :: upToNull l

theorem length_upToNull_le (l : List UInt8) : (upToNull l).length ≤ l.length := by
  induction l with
  | nil => exact le_rfl
  | cons x l ih =>
    unfold upToNull
    split
    · exact Nat.succ_le_succ (Nat.zero_le _)
    · exact Nat.succ_le_succ ih

theorem upToNull_append_of_mem {l : List UInt8} (l' : List UInt8) (h : 0 ∈ l) :
    upToNull (l ++ l') = upToNull l := by
  induction l with
  | nil => exact absurd h List.not_mem_nil
  | cons x l ih =>
    rw [List.cons_append, upToNull, upToNull]
    by_cases hx : x = 0
    · rw [if_pos hx, if_pos hx]
    · rw [if_neg hx, if_neg hx, ih ((List.mem_cons.mp h).resolve_left (Ne.symm hx))]

theorem upToNull_append_of_notMem {l : List UInt8} (l' : List UInt8) (h : 0 ∉ l) :
    upToNull (l ++ l') = l ++ upToNull l' := by
  induction l with
  | nil => rfl
  | cons x l ih =>
    rw [List.mem_cons, not_or] at h
    rw [List.cons_append, upToNull, if_neg (Ne.symm h.1), ih h.2, List.cons_append]

section Copyinstr

variable {dst p max : ℕ}

/-- The inner loop over bytes that are not null. -/
theorem strLoop_of_notMem (hnull : 0 ∉ mem.slice p n) (h : p + n ≤ dst ∨ dst + n ≤ p) :
    Heap.strLoop mem p dst n = (mem.write dst (mem.slice p n), false) := by
  induction n generalizing mem p dst with
  | zero => exact Prod.ext (Bytes.write_nil mem dst).symm rfl
  | succ n ih =>
    rw [Bytes.slice_succ, List.mem_cons, not_or] at hnull
    have hrest : Bytes.slice (update mem dst (mem p)) (p + 1) n
        = mem.slice (p + 1) n := by
      apply Bytes.slice_congr
      intro i hi
      exact update_of_ne (by omega) _ _
    unfold Heap.strLoop
    rw [if_neg (Ne.symm hnull.1), ih (hrest ▸ hnull.2) (by omega), hrest, Bytes.slice_succ,
      Bytes.write_cons]

theorem strLoop_of_mem (hnull : 0 ∈ mem.slice p n)
    (h : ∀ i < n, ∀ j < (upToNull (mem.slice p n)).length, p + i ≠ dst + j) :
    Heap.strLoop mem p dst n = (mem.write dst (upToNull (mem.slice p n)), true) := by
  induction n generalizing mem p dst with
  | zero => exact absurd hnull List.not_mem_nil
  | succ n ih =>
    unfold Heap.strLoop
    rw [Bytes.slice_succ, upToNull] at h ⊢
    by_cases hp : mem p = 0
    · rw [if_pos hp, if_pos hp, Bytes.update_eq_write]
    · rw [if_neg hp] at h ⊢
      rw [Bytes.slice_succ] at hnull
      have hin := (List.mem_cons.mp hnull).resolve_left (Ne.symm hp)
      -- the first byte goes where none of the others is read
      have hrest : Bytes.slice (update mem dst (mem p)) (p + 1) n
          = mem.slice (p + 1) n := by
        apply Bytes.slice_congr
        intro i hi
        apply update_of_ne
        have := h (i + 1) (by omega) 0 (Nat.succ_pos _)
        omega
      rw [if_neg hp, Bytes.write_cons, ← hrest]
      apply ih (hrest ▸ hin)
      rw [hrest]
      intro i hi j hj
      have := h (i + 1) (by omega) (j + 1) (Nat.succ_lt_succ hj)
      omega

/-- **`copyinstr` byte by byte.** -/
theorem Heap.copyinstr_eq (h : UserTable s.mem t root)
    (hbuf : Buffer t dst (upToNull (userBytes t s.mem va max)).length) :
    s.copyinstr root dst va max
      = .ok (⟨s.mem.write dst (upToNull (userBytes t s.mem va max)), s.freelist⟩,
          decide (0 ∈ userBytes t s.mem va max)) := by
  have hm : Means t Heap.strLoop false
      (fun mem va dst max => Buffer t dst (upToNull (userBytes t mem va max)).length)
      (fun mem va dst max => (mem.write dst (upToNull (userBytes t mem va max)),
        decide (0 ∈ userBytes t mem va max))) := by
    constructor
    · intro mem va dst
      exact Prod.ext (Bytes.write_nil mem dst) rfl
    · intro mem va dst max _ hnone
      rw [userBytes_of_none mem max hnone]
      exact Prod.ext (Bytes.write_nil mem dst) rfl
    · intro mem va dst max b n hbuf hn hle hpage
      have hsplit := userBytes_page mem hn hpage
      rw [hsplit] at hbuf ⊢
      by_cases hnull : 0 ∈ mem.slice b n
      · -- the string ends on this page
        rw [upToNull_append_of_mem _ hnull] at hbuf ⊢
        rw [strLoop_of_mem hnull fun i hi j hj => hbuf.1 j hj _ _ (hpage i hi), if_pos rfl,
          decide_eq_true (List.mem_append_left _ hnull)]
        exact ⟨sameOn_write hbuf.2, rfl⟩
      · rw [upToNull_append_of_notMem _ hnull] at hbuf ⊢
        rw [List.length_append, Bytes.length_slice] at hbuf
        obtain ⟨hsame, hrest, happend, hbuf'⟩ := hbuf.page mem (b := b)
        rw [strLoop_of_notMem hnull (hbuf.1.disjoint (by omega) hpage), if_neg Bool.false_ne_true,
          hrest, happend, Prod.mk.injEq, decide_eq_decide, List.mem_append, or_iff_right hnull]
        exact ⟨hsame, ⟨rfl, Iff.rfl⟩, hbuf'⟩
  exact hm.pageLoop le_rfl h hbuf

end Copyinstr

/-! ### All together -/

section Byte

variable {len : ℕ}

/-- Where the bytes of a range stop: at the end of a page. -/
theorem upTo_stops (t : Radix 512 ℕ ℕ 2) (va len : ℕ)
    (h : (upTo (userAddr t) va len).length ≠ len) :
    (upTo (userAddr t) va len).length = 0 ∨
      (va + (upTo (userAddr t) va len).length) % pgSize = 0 := by
  generalize hk : (upTo (userAddr t) va len).length = k at h ⊢
  have hle : k ≤ len := hk ▸ length_upTo_le _ va len
  by_contra hmid
  rw [not_or] at hmid
  -- the byte before is on the same page
  obtain ⟨a, ha⟩ := Option.ne_none_iff_exists'.mp
    ((lt_length_upTo.mp (show k - 1 < _ by rw [hk]; omega)).2 (k - 1) le_rfl)
  have hmapped := userAddr_ne_none.mp (ha ▸ Option.some_ne_none a)
  have hpage : (va + (k - 1)) / pgSize = (va + k) / pgSize := by
    simp only [pgSize] at hmid ⊢
    omega
  have hnext : UserMapped t (va + k) := by
    obtain ⟨hlt, e, hget, hu⟩ := hmapped
    rw [← px_page, hpage, px_page] at hget
    exact ⟨lt_maxVA_iff.mpr (hpage ▸ lt_maxVA_iff.mp hlt), e, hget, hu⟩
  have hlonger : k < (upTo (userAddr t) va len).length := by
    refine lt_length_upTo.mpr ⟨by omega, fun i hi => ?_⟩
    rcases Nat.lt_or_ge i k with hik | hik
    · exact (lt_length_upTo.mp (hk.symm ▸ hik)).2 i le_rfl
    · rw [show i = k by omega]
      exact userAddr_ne_none.mpr hnext
  omega

/-- What `copyout` is for: the bytes of the kernel's buffer go, in order, where the
user's addresses are.  If it fails, the first `k` of them, up to the end of a page. -/
structure CopiesOut (t : Radix 512 ℕ ℕ 2) (mem : Bytes) (va src len : ℕ) (mem' : Bytes)
    (ok : Bool) : Prop where
  ok_iff : ok = true ↔ ∀ i < len, UserMapped t (va + i)
  copied : ∃ addrs : List ℕ, (∀ i (hi : i < addrs.length), userAddr t (va + i) = some addrs[i]) ∧
    mem' = applyUpdates mem (addrs.zip (mem.slice src addrs.length)) ∧
    (if ok = true then addrs.length = len
     else addrs.length < len ∧ (addrs.length = 0 ∨ (va + addrs.length) % pgSize = 0))
  others : ∀ x, (∀ i < len, userAddr t (va + i) ≠ some x) → mem' x = mem x

/-- What `copyin` is for. -/
structure CopiesIn (t : Radix 512 ℕ ℕ 2) (mem : Bytes) (va dst len : ℕ) (mem' : Bytes)
    (ok : Bool) : Prop where
  ok_iff : ok = true ↔ ∀ i < len, UserMapped t (va + i)
  copied : ∃ bytes : List UInt8,
    (∀ i (hi : i < bytes.length), (userAddr t (va + i)).map mem = some bytes[i]) ∧
    mem' = mem.write dst bytes ∧
    (if ok = true then bytes.length = len
     else bytes.length < len ∧ (bytes.length = 0 ∨ (va + bytes.length) % pgSize = 0))

/-- What `copyinstr` is for. -/
structure CopiesStr (t : Radix 512 ℕ ℕ 2) (mem : Bytes) (va dst max : ℕ) (mem' : Bytes)
    (ok : Bool) : Prop where
  ok_iff : ok = true ↔
    ∃ k < max, (∀ i ≤ k, UserMapped t (va + i)) ∧ (userAddr t (va + k)).map mem = some 0
  string : ok = true → ∃ str : List UInt8, 0 ∉ str ∧ str.length < max ∧
    (∀ i (hi : i < (str ++ [0]).length), (userAddr t (va + i)).map mem = some (str ++ [0])[i]) ∧
    mem' = mem.write dst (str ++ [0])
  within : ∀ x, ¬ (dst ≤ x ∧ x < dst + max) → mem' x = mem x

theorem get_userBytes {i : ℕ} (h : i < (userBytes t mem va len).length) :
    (userAddr t (va + i)).map mem = some (userBytes t mem va len)[i] := by
  have hi : i < (upTo (userAddr t) va len).length := by rwa [length_userBytes] at h
  rw [get_upTo hi, Option.map_some]
  simp only [userBytes, List.getElem_map]

theorem length_upTo_eq_iff :
    (upTo (userAddr t) va len).length = len ↔ ∀ i < len, UserMapped t (va + i) := by
  simp only [length_upTo_iff, userAddr_ne_none]

theorem copiesOut (t : Radix 512 ℕ ℕ 2) (mem : Bytes) (va src len : ℕ) :
    CopiesOut t mem va src len (copiedOut t mem va src len)
      (decide ((upTo (userAddr t) va len).length = len)) := by
  refine ⟨?_, ⟨upTo (userAddr t) va len, fun i hi => get_upTo hi, rfl, ?_⟩, fun x hx => ?_⟩
  · rw [decide_eq_true_iff, length_upTo_eq_iff]
  · simp only [decide_eq_true_eq]
    split
    · assumption
    · rename_i hshort
      exact ⟨lt_of_le_of_ne (length_upTo_le _ va len) hshort, upTo_stops t va len hshort⟩
  · apply applyUpdates_of_notMem
    intro hin
    obtain ⟨⟨a, y⟩, hay, rfl⟩ := List.mem_map.mp hin
    obtain ⟨i, hi, ha⟩ := mem_upTo (List.of_mem_zip hay).1
    exact hx i hi ha

theorem copiesIn (t : Radix 512 ℕ ℕ 2) (mem : Bytes) (va dst len : ℕ) :
    CopiesIn t mem va dst len (mem.write dst (userBytes t mem va len))
      (decide ((userBytes t mem va len).length = len)) := by
  refine ⟨?_, userBytes t mem va len, fun i hi => get_userBytes hi, rfl, ?_⟩
  · rw [decide_eq_true_iff, length_userBytes, length_upTo_eq_iff]
  · rw [length_userBytes]
    simp only [decide_eq_true_eq]
    split
    · assumption
    · rename_i hshort
      exact ⟨lt_of_le_of_ne (length_upTo_le _ va len) hshort, upTo_stops t va len hshort⟩

/-- The bytes up to the null are a string and the null. -/
theorem upToNull_of_mem {l : List UInt8} (h : 0 ∈ l) :
    ∃ str rest, 0 ∉ str ∧ l = str ++ 0 :: rest ∧ upToNull l = str ++ [0] := by
  obtain ⟨str, rest, rfl, hstr⟩ := List.eq_append_cons_of_mem h
  refine ⟨str, rest, hstr, rfl, ?_⟩
  rw [upToNull_append_of_notMem _ hstr, upToNull, if_pos rfl]

theorem copiesStr (t : Radix 512 ℕ ℕ 2) (mem : Bytes) (va dst max : ℕ) :
    CopiesStr t mem va dst max (mem.write dst (upToNull (userBytes t mem va max)))
      (decide (0 ∈ userBytes t mem va max)) := by
  have hlen : (userBytes t mem va max).length ≤ max :=
    (length_userBytes t mem va max).trans_le (length_upTo_le _ va max)
  refine ⟨?_, fun hok => ?_, fun x hx => if_neg ?_⟩
  · rw [decide_eq_true_iff, List.mem_iff_getElem]
    constructor
    · rintro ⟨k, hk, hzero⟩
      have hmapped := lt_length_upTo.mp (length_userBytes t mem va max ▸ hk)
      refine ⟨k, hmapped.1, fun i hi => userAddr_ne_none.mp (hmapped.2 i hi), ?_⟩
      rw [get_userBytes hk, hzero]
    · rintro ⟨k, hk, hall, hzero⟩
      have hin : k < (userBytes t mem va max).length := by
        rw [length_userBytes]
        exact lt_length_upTo.mpr ⟨hk, fun i hi => userAddr_ne_none.mpr (hall i hi)⟩
      rw [get_userBytes hin] at hzero
      exact ⟨k, hin, Option.some.inj hzero⟩
  · obtain ⟨str, rest, hstr, hsplit, hnull⟩ := upToNull_of_mem (of_decide_eq_true hok)
    have hshort := hlen
    rw [hsplit, List.length_append, List.length_cons] at hshort
    refine ⟨str, hstr, by omega, fun i hi => ?_, by rw [hnull]⟩
    rw [List.length_append, List.length_singleton] at hi
    rw [get_userBytes (by rw [hsplit, List.length_append, List.length_cons]; omega)]
    congr 1
    simp only [hsplit, List.append_cons str 0 rest]
    exact List.getElem_append_left (by simpa using hi)
  · have hle := (length_upToNull_le (userBytes t mem va max)).trans hlen
    omega

/-- **Copying over pages and words is copying bytes.**  The user has no page
table, and the buffers of the kernel, as far as they are used, are no bytes of the
user and on no page table. -/
theorem copies_are_bytewise (h : UserTable s.mem t root) (hhidden : TablesHidden t) :
    (∀ mem dst src n, dst + n.toInt.toNat ≤ src ∨ src + n.toInt.toNat ≤ dst →
      customMemcpy mem dst src n = mem.write dst (mem.slice src n.toInt.toNat)) ∧
    (∀ dstva src len, NotUser t src (upTo (userAddr t) dstva len).length →
      ∃ mem' ok, s.copyout root dstva src len = .ok (⟨mem', s.freelist⟩, ok) ∧
        CopiesOut t s.mem dstva src len mem' ok) ∧
    (∀ srcva dst len, Buffer t dst (upTo (userAddr t) srcva len).length →
      ∃ mem' ok, s.copyin root dst srcva len = .ok (⟨mem', s.freelist⟩, ok) ∧
        CopiesIn t s.mem srcva dst len mem' ok) ∧
    ∀ srcva dst max, Buffer t dst (upToNull (userBytes t s.mem srcva max)).length →
      ∃ mem' ok, s.copyinstr root dst srcva max = .ok (⟨mem', s.freelist⟩, ok) ∧
        CopiesStr t s.mem srcva dst max mem' ok := by
  refine ⟨fun mem dst src n hapart => customMemcpy_eq mem hapart, fun dstva src len hbuf => ?_,
    fun srcva dst len hbuf => ?_, fun srcva dst max hbuf => ?_⟩
  · exact ⟨_, _, Heap.copyout_eq hhidden h hbuf, copiesOut t s.mem dstva src len⟩
  · rw [← length_userBytes t s.mem] at hbuf
    exact ⟨_, _, Heap.copyin_eq h hbuf, copiesIn t s.mem srcva dst len⟩
  · exact ⟨_, _, Heap.copyinstr_eq h hbuf, copiesStr t s.mem srcva dst max⟩

end Byte

/-! ### One page -/

/-- Page tables at 0x1000, 0x2000 and 0x3000 that map the page at 0x4000 for the user. -/
def onePageMem : Bytes :=
  (((Bytes.store (fun _ => 0) 0x1000 8 (pa2pte 0x2000 ||| 1)).store 0x2000 8
    (pa2pte 0x3000 ||| 1)).store 0x3000 8 (pa2pte 0x4000 ||| 0x17)).write 0x4000 [104, 105, 0]

def onePageTree : Radix 512 ℕ ℕ 2 :=
  .node 0x1000 fun i => if i = 0 then .node 0x2000 fun j => if j = 0 then
    .leaf 0x3000 fun k => if k = 0 then some (pa2pte 0x4000 ||| 0x17) else none
    else .absent else .absent

theorem mem_pages_onePageTree {q : ℕ} (h : q ∈ onePageTree.pages) :
    q = 0x1000 ∨ q = 0x2000 ∨ q = 0x3000 := by
  simp only [onePageTree, Radix.pages, List.mem_append, List.mem_flatMap, List.mem_singleton] at h
  rcases h with ⟨i, -, hi⟩ | h
  · split at hi
    · simp only [Radix.pages, List.mem_append, List.mem_flatMap, List.mem_singleton] at hi
      rcases hi with ⟨j, -, hj⟩ | h
      · split at hj
        · exact .inr (.inr (List.mem_singleton.mp hj))
        · exact absurd hj List.not_mem_nil
      · exact .inr (.inl h)
    · exact absurd hi List.not_mem_nil
  · exact .inl h

theorem get_onePageTree {d : ℕ → Fin 512} {e : ℕ} (h : onePageTree.get d = some e) :
    e = pa2pte 0x4000 ||| 0x17 := by
  simp only [onePageTree, Radix.get, Radix.find] at h
  split at h
  · simp only [Radix.find] at h
    split at h
    · simp only [Radix.find, Option.join_some] at h
      split at h
      · exact (Option.some.inj h).symm
      · cases h
    · cases h
  · cases h

theorem onePage_userTable : UserTable onePageMem onePageTree 0x1000 := by
  -- the other entries are 0
  have hzero : ∀ p, p = 0x1000 ∨ p = 0x2000 ∨ p = 0x3000 → ∀ i : Fin 512, i ≠ 0 →
      onePageMem.load (p + 8 * i) 8 % 2 = 0 := by
    intro p hp i hi
    have hpos : i.val ≠ 0 := fun heq => hi (Fin.ext heq)
    have hlt := i.isLt
    rw [Bytes.load_of_zero fun x h₁ h₂ => ?_]
    show (if 0x4000 ≤ x ∧ x < 0x4000 + 3 then _ else if 0x3000 ≤ x ∧ x < 0x3000 + 8 then _ else
      if 0x2000 ≤ x ∧ x < 0x2000 + 8 then _ else if 0x1000 ≤ x ∧ x < 0x1000 + 8 then _ else
        (0 : UInt8)) = 0
    rw [if_neg (by omega), if_neg (by omega), if_neg (by omega), if_neg (by omega)]
  refine ⟨⟨rfl, fun i => ?_⟩, fun p hp => ?_, fun d e he => ?_⟩
  · by_cases hi : i = 0
    · subst hi
      refine .inr ⟨by decide +kernel, by decide +kernel, fun j => ?_⟩
      by_cases hj : j = 0
      · subst hj
        refine .inr ⟨by decide +kernel, by decide +kernel, fun k => ?_⟩
        by_cases hk : k = 0
        · subst hk
          exact ⟨by decide +kernel, by decide +kernel⟩
        · beta_reduce
          rw [if_neg hk]
          exact hzero 0x3000 (by decide) k hk
      · beta_reduce
        rw [if_neg hj]
        exact .inl ⟨trivial, hzero 0x2000 (by decide) j hj⟩
    · beta_reduce
      rw [if_neg hi]
      exact .inl ⟨trivial, hzero 0x1000 (by decide) i hi⟩
  · rcases mem_pages_onePageTree hp with rfl | rfl | rfl <;> decide
  · rw [get_onePageTree he]
    decide

theorem userAddr_onePageTree {a p : ℕ} (h : userAddr onePageTree a = some p) :
    0x4000 ≤ p ∧ p < 0x5000 := by
  unfold userAddr at h
  split at h
  · cases h
  · split at h
    · cases h
    · rename_i e he
      rw [get_onePageTree he, if_neg (by decide), show pte2pa (pa2pte 0x4000 ||| 0x17) = 0x4000 by decide]
        at h
      have hmod := Nat.mod_lt a pgSize_pos
      cases h
      unfold pgSize at hmod ⊢
      omega

theorem copies_are_bytewise_onePage :
    ∃ mem', Heap.copyinstr ⟨onePageMem, 0⟩ 0x1000 0x9000 0 16 = .ok (⟨mem', 0⟩, true) ∧
      CopiesStr onePageTree onePageMem 0 0x9000 16 mem' true := by
  have hhidden : TablesHidden onePageTree := by
    intro a p ha q hq
    have hp := userAddr_onePageTree ha
    unfold pgSize
    rcases mem_pages_onePageTree hq with rfl | rfl | rfl <;> omega
  have hbuf : ∀ k ≤ 16, Buffer onePageTree 0x9000 k := by
    refine fun k hk => ⟨fun j _ a p ha => ?_, fun j _ q hq => ?_⟩
    · have hp := userAddr_onePageTree ha
      omega
    · unfold pgSize
      rcases mem_pages_onePageTree hq with rfl | rfl | rfl <;> omega
  have hlen := (length_upToNull_le (userBytes onePageTree onePageMem 0 16)).trans
    ((length_userBytes _ _ _ _).trans_le (length_upTo_le _ 0 16))
  obtain ⟨mem', ok, heq, hcopies⟩ :=
    (copies_are_bytewise (s := ⟨onePageMem, 0⟩) onePage_userTable hhidden).2.2.2 0 0x9000 16
      (hbuf _ hlen)
  have hmapped : ∀ i ≤ 2, UserMapped onePageTree (0 + i) := by
    intro i hi
    have hpx : px (0 + i) = px 0 := by
      rw [← px_page, show (0 + i) / pgSize = 0 / pgSize by unfold pgSize; omega, px_page]
    refine ⟨by unfold maxVA; omega, pa2pte 0x4000 ||| 0x17, ?_, by decide⟩
    rw [hpx]
    rfl
  obtain rfl : ok = true := hcopies.ok_iff.mpr ⟨2, by decide, hmapped, by decide +kernel⟩
  exact ⟨mem', heq, hcopies⟩

end Xv6Zig
