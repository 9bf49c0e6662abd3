/-
Xv6Zig/UserCopy.lean

What `copyin` and `copyout` copy.

Both run over the pages of a range of the user's addresses, translate each and
copy with `custom_memcpy`, until one is not mapped for the user.  What they
have copied by then stays copied.  `copyAddrs` is that loop: the physical
addresses of the bytes it gets to, in order, and whether these are all.
`copyin` reads memory there, `copyout` writes.

Byte by byte this is the translation of the addresses (`translate`) up to the
first one that has none (`copyAddrs_reached`).
-/
import Xv6Zig.Lib.Updates
import Xv6Zig.Ringbuf
import Xv6Zig.Uvm

namespace Xv6Zig

open Lib

/-- Physical memory. -/
abbrev Ram := ℕ → UInt8

/-- The loop of `copyin` and `copyout`. -/
def copyAddrs (pt : PageTable) : ℕ → ℕ → ℕ → List ℕ × Bool
  | 0, _, len => ([], len = 0)
  | fuel + 1, va, len =>
      if len = 0 then ([], true)
      else
        let va0 := pgRoundDown va
        match walkaddr pt va0 with
        | none => ([], false)
        | some pa0 =>
            let n := min (pgSize - (va - va0)) len
            let (rest, ok) := copyAddrs pt fuel (va0 + pgSize) (len - n)
            (List.range' (pa0 + (va - va0)) n ++ rest, ok)

/-- `copyin`: the bytes it has copied, and whether these are all. -/
def copyinBytes (pt : PageTable) (ram : Ram) (srcva len : ℕ) : List UInt8 × Bool :=
  let (addrs, ok) := copyAddrs pt len srcva len
  (addrs.map ram, ok)

/-- `copyout` of the bytes `src`: memory after it, and whether all were copied. -/
def copyoutBytes (pt : PageTable) (ram : Ram) (dstva : ℕ) (src : List UInt8) : Ram × Bool :=
  let (addrs, ok) := copyAddrs pt src.length dstva src.length
  (applyUpdates ram (addrs.zip src), ok)

/-! ### Byte by byte -/

/-- The physical address of the byte that the user has at `va`. -/
def translate (pt : PageTable) (va : ℕ) : Option ℕ :=
  (walkaddr pt (pgRoundDown va)).map (· + va % pgSize)

/-- What the user sees at `va`. -/
def readAt (pt : PageTable) (ram : Ram) (va : ℕ) : Option UInt8 :=
  (translate pt va).map ram

variable {pt : PageTable} {ram : Ram} {va len fuel : ℕ} {src : List UInt8}

theorem lt_of_translate (h : translate pt va ≠ none) : va < maxVA := by
  by_contra hge
  apply h
  have hdown : maxVA ≤ pgRoundDown va := by
    simp only [pgRoundDown, maxVA, pgSize] at hge ⊢
    omega
  unfold translate walkaddr
  rw [if_pos hdown]
  rfl

/-- The address is that of the byte in the page. -/
theorem translate_eq_some {a : ℕ} : translate pt va = some a ↔
    va < maxVA ∧ ∃ pte, leafAt pt (va / pgSize) = some pte ∧ pte.perm.u = true ∧
      a = pte.pa + va % pgSize := by
  have hround : pgRoundDown va / pgSize = va / pgSize := Nat.mul_div_cancel _ pgSize_pos
  have hlegal : pgRoundDown va < maxVA ↔ va < maxVA := by rw [lt_maxVA_iff, hround, ← lt_maxVA_iff]
  unfold translate walkaddr
  by_cases hva : maxVA ≤ pgRoundDown va
  · rw [if_pos hva]
    constructor
    · exact fun h => nomatch h
    · rintro ⟨hlt, -⟩
      exact absurd (hlegal.mpr hlt) (not_lt.mpr hva)
  · rw [if_neg hva]
    have hleaf : leafAt pt _ = _ := leafAt_of_lt (not_le.mp hva)
    rw [hround] at hleaf
    rw [hleaf]
    unfold Radix.get
    have hlt := hlegal.mp (not_le.mp hva)
    rcases pt.find (px (pgRoundDown va)) with - | - | pte
    · simp
    · simp
    · cases hu : pte.perm.u with
      | false => simp [hu]
      | true =>
        simp only [hu, if_true, Option.map_some, Option.some.injEq]
        constructor
        · rintro rfl
          exact ⟨hlt, pte, rfl, hu, rfl⟩
        · rintro ⟨-, pte', heq, -, rfl⟩
          rw [show pte = pte' from Option.some.inj heq]

/-- The first `addrs.length` bytes from `va` on are the user's, at these
addresses; if they are not all, the next one is not. -/
structure Reached (pt : PageTable) (va len : ℕ) (addrs : List ℕ) (ok : Bool) : Prop where
  le : addrs.length ≤ len
  addr : ∀ j (h : j < addrs.length), translate pt (va + j) = some addrs[j]
  ok_iff : ok = true ↔ addrs.length = len
  stop : addrs.length < len → translate pt (va + addrs.length) = none

theorem copyAddrs_zero (pt : PageTable) (fuel va : ℕ) : copyAddrs pt fuel va 0 = ([], true) := by
  cases fuel with
  | zero => rfl
  | succ fuel => rfl

theorem copyAddrs_none (hlen : len ≠ 0) (hw : walkaddr pt (pgRoundDown va) = none) :
    copyAddrs pt (fuel + 1) va len = ([], false) := by
  unfold copyAddrs
  rw [if_neg hlen]
  simp only [hw]

theorem copyAddrs_some {pa : ℕ} (hlen : len ≠ 0) (hw : walkaddr pt (pgRoundDown va) = some pa) :
    copyAddrs pt (fuel + 1) va len =
      (List.range' (pa + (va - pgRoundDown va)) (min (pgSize - (va - pgRoundDown va)) len) ++
        (copyAddrs pt fuel (pgRoundDown va + pgSize)
          (len - min (pgSize - (va - pgRoundDown va)) len)).1,
        (copyAddrs pt fuel (pgRoundDown va + pgSize)
          (len - min (pgSize - (va - pgRoundDown va)) len)).2) := by
  conv_lhs => unfold copyAddrs
  rw [if_neg hlen]
  simp only [hw]

theorem Reached.nil (pt : PageTable) (va : ℕ) : Reached pt va 0 [] true :=
  ⟨le_rfl, fun j hj => absurd hj (Nat.not_lt_zero j), ⟨fun _ => rfl, fun _ => rfl⟩,
    fun hlt => absurd hlt (lt_irrefl 0)⟩

theorem Reached.append {a n rest_len : ℕ} {rest : List ℕ} {ok : Bool}
    (h : Reached pt (va + n) rest_len rest ok)
    (hpage : ∀ j < n, translate pt (va + j) = some (a + j)) :
    Reached pt va (n + rest_len) (List.range' a n ++ rest) ok := by
  have hlength : (List.range' a n ++ rest).length = n + rest.length := by
    rw [List.length_append, List.length_range']
  refine ⟨?_, fun j hj => ?_, ?_, fun hlt => ?_⟩
  · rw [hlength]
    exact Nat.add_le_add_left h.le n
  · by_cases hin : j < n
    · rw [hpage j hin, List.getElem_append_left (by rwa [List.length_range']),
        List.getElem_range', Nat.one_mul]
    · rw [hlength] at hj
      have haddr := h.addr (j - n) (by omega)
      rw [show va + n + (j - n) = va + j by omega] at haddr
      rw [haddr, List.getElem_append_right (by rw [List.length_range']; omega)]
      simp only [List.length_range']
  · rw [h.ok_iff, hlength, Nat.add_left_cancel_iff]
  · rw [hlength] at hlt ⊢
    rw [← Nat.add_assoc]
    exact h.stop (by omega)

/-- **The loop over pages is one over bytes.** -/
theorem copyAddrs_reached (hlen : len ≤ fuel) (va : ℕ) :
    Reached pt va len (copyAddrs pt fuel va len).1 (copyAddrs pt fuel va len).2 := by
  induction fuel generalizing va len with
  | zero =>
    obtain rfl := Nat.le_zero.mp hlen
    exact Reached.nil pt va
  | succ fuel ih =>
    by_cases hzero : len = 0
    · subst hzero
      exact Reached.nil pt va
    -- the bytes of this round lie in one page
    have hpage : ∀ j, j < pgSize - (va - pgRoundDown va) → translate pt (va + j)
        = (walkaddr pt (pgRoundDown va)).map (· + (va - pgRoundDown va + j)) := by
      intro j hj
      have hround : pgRoundDown (va + j) = pgRoundDown va := by
        simp only [pgRoundDown, pgSize] at hj ⊢
        omega
      have hoff : (va + j) % pgSize = va - pgRoundDown va + j := by
        simp only [pgRoundDown, pgSize] at hj ⊢
        omega
      unfold translate
      rw [hround, hoff]
    have hpos : 0 < pgSize - (va - pgRoundDown va) := by
      simp only [pgRoundDown, pgSize]
      omega
    rcases hw : walkaddr pt (pgRoundDown va) with - | pa
    · rw [copyAddrs_none hzero hw]
      refine ⟨Nat.zero_le _, fun j hj => absurd hj (Nat.not_lt_zero j), ?_, fun _ => ?_⟩
      · exact iff_of_false (by rintro ⟨⟩) (Ne.symm hzero)
      · show translate pt (va + 0) = none
        rw [hpage 0 hpos, hw]
        rfl
    · rw [copyAddrs_some hzero hw]
      -- and the rest starts at the next page, if there is a rest
      have hstart : len - min (pgSize - (va - pgRoundDown va)) len ≠ 0 →
          va + min (pgSize - (va - pgRoundDown va)) len = pgRoundDown va + pgSize := by
        intro hrest
        simp only [pgRoundDown, pgSize] at hrest ⊢
        omega
      have hrest : Reached pt (va + min (pgSize - (va - pgRoundDown va)) len)
          (len - min (pgSize - (va - pgRoundDown va)) len)
          (copyAddrs pt fuel (pgRoundDown va + pgSize)
            (len - min (pgSize - (va - pgRoundDown va)) len)).1
          (copyAddrs pt fuel (pgRoundDown va + pgSize)
            (len - min (pgSize - (va - pgRoundDown va)) len)).2 := by
        by_cases hnone : len - min (pgSize - (va - pgRoundDown va)) len = 0
        · rw [hnone, copyAddrs_zero]
          exact Reached.nil pt _
        · rw [hstart hnone]
          exact ih (by omega) _
      have happ := hrest.append (a := pa + (va - pgRoundDown va)) fun j hj => by
        rw [hpage j (by omega), hw, Option.map_some, Nat.add_assoc]
      rwa [Nat.add_sub_cancel' (min_le_right _ _)] at happ

theorem Reached.unique {addrs addrs' : List ℕ} {ok ok' : Bool} (h : Reached pt va len addrs ok)
    (h' : Reached pt va len addrs' ok') : addrs = addrs' ∧ ok = ok' := by
  have hle : ∀ {l l' : List ℕ} {b b' : Bool}, Reached pt va len l b → Reached pt va len l' b' →
      l'.length ≤ l.length := by
    intro l l' b b' h h'
    by_contra hlt
    have hstop := h.stop (by have := h'.le; omega)
    rw [h'.addr l.length (by omega)] at hstop
    cases hstop
  have hlen : addrs.length = addrs'.length := le_antisymm (hle h' h) (hle h h')
  refine ⟨List.ext_getElem hlen fun j h₁ h₂ => ?_, ?_⟩
  · have heq := h.addr j h₁
    rw [h'.addr j h₂] at heq
    exact (Option.some.inj heq).symm
  · rw [Bool.eq_iff_iff, h.ok_iff, h'.ok_iff, hlen]

/-- Bytes that follow bytes that were all reached. -/
theorem Reached.trans {a b : ℕ} {A B : List ℕ} {ok : Bool} (h : Reached pt va a A true)
    (h' : Reached pt (va + a) b B ok) : Reached pt va (a + b) (A ++ B) ok := by
  have hA : A.length = a := h.ok_iff.mp rfl
  refine ⟨?_, fun j hj => ?_, ?_, fun hlt => ?_⟩
  · rw [List.length_append, hA]
    exact Nat.add_le_add_left h'.le a
  · by_cases hin : j < A.length
    · rw [h.addr j hin, List.getElem_append_left hin]
    · rw [List.length_append] at hj
      have haddr := h'.addr (j - a) (by omega)
      rw [show va + a + (j - a) = va + j by omega] at haddr
      rw [haddr, List.getElem_append_right (by omega)]
      simp only [hA]
  · rw [h'.ok_iff, List.length_append, hA, Nat.add_left_cancel_iff]
  · rw [List.length_append, hA] at hlt ⊢
    rw [← Nat.add_assoc]
    exact h'.stop (by omega)

/-- Bytes that follow bytes that were not all reached. -/
theorem Reached.short {a : ℕ} {A : List ℕ} (h : Reached pt va a A false) (b : ℕ) :
    Reached pt va (a + b) A false := by
  have hlt : A.length < a := lt_of_le_of_ne h.le fun heq => nomatch h.ok_iff.mpr heq
  refine ⟨by omega, h.addr, ⟨(fun hno => nomatch hno), fun heq => ?_⟩, fun _ => h.stop hlt⟩
  omega

/-- Whether all is copied is what the loops without contents tell. -/
theorem copyAddrs_ok (pt : PageTable) (fuel va len : ℕ) :
    (copyAddrs pt fuel va len).2 = copyLoop pt fuel va len := by
  induction fuel generalizing va len with
  | zero => rfl
  | succ fuel ih =>
    unfold copyLoop
    by_cases hzero : len = 0
    · rw [if_pos hzero, hzero, copyAddrs_zero]
    · rw [if_neg hzero]
      rcases hw : walkaddr pt (pgRoundDown va) with - | pa
      · rw [copyAddrs_none hzero hw]
        simp only [hw]
      · rw [copyAddrs_some hzero hw]
        simp only [hw]
        exact ih _ _

theorem copyoutBytes_ok (pt : PageTable) (ram : Ram) (va : ℕ) (src : List UInt8) :
    (copyoutBytes pt ram va src).2 = copyout pt va src.length :=
  copyAddrs_ok pt src.length va src.length

theorem length_copyinBytes_le (pt : PageTable) (ram : Ram) (va len : ℕ) :
    (copyinBytes pt ram va len).1.length ≤ len := by
  show ((copyAddrs pt len va len).1.map ram).length ≤ len
  rw [List.length_map]
  exact (copyAddrs_reached le_rfl va).le

/-- **What `copyin` has copied are the user's bytes**, all of them if it
succeeds. -/
theorem copyinBytes_eq (pt : PageTable) (ram : Ram) (va len : ℕ) :
    (copyinBytes pt ram va len).1.map some
      = (List.range (copyinBytes pt ram va len).1.length).map fun j => readAt pt ram (va + j) := by
  have hreached : Reached pt va len _ _ := copyAddrs_reached (le_refl len) va
  apply List.ext_getElem
  · simp
  · intro j h₁ h₂
    have hj : j < (copyAddrs pt len va len).1.length := by simpa [copyinBytes] using h₁
    simp only [copyinBytes, List.getElem_map, List.getElem_range, readAt,
      hreached.addr j hj, Option.map_some]

theorem length_copyinBytes (h : (copyinBytes pt ram va len).2 = true) :
    (copyinBytes pt ram va len).1.length = len := by
  show ((copyAddrs pt len va len).1.map ram).length = len
  rw [List.length_map]
  exact (copyAddrs_reached le_rfl va).ok_iff.mp h

/-! ### `copyout` in pieces -/

/-- The part of a range of `len` bytes that can be reached. -/
def reach (pt : PageTable) (va len : ℕ) : List ℕ :=
  (copyAddrs pt len va len).1

theorem reached (pt : PageTable) (va len : ℕ) :
    Reached pt va len (reach pt va len) (copyout pt va len) := by
  have hreached : Reached pt va len _ _ := copyAddrs_reached (le_refl len) va
  rwa [copyAddrs_ok] at hreached

theorem lt_length_reach {j : ℕ} : j < (reach pt va len).length ↔
    j < len ∧ ∀ i ≤ j, translate pt (va + i) ≠ none := by
  have h := reached pt va len
  constructor
  · intro hj
    refine ⟨lt_of_lt_of_le hj h.le, fun i hi => ?_⟩
    rw [h.addr i (by omega)]
    exact Option.some_ne_none _
  · rintro ⟨hj, hall⟩
    by_contra hge
    exact hall _ (not_lt.mp hge) (h.stop (by omega))

theorem copyout_add {k k' : ℕ} (h : copyout pt va k = true) :
    copyout pt va (k + k') = copyout pt (va + k) k' := by
  have hfirst := reached pt va k
  rw [h] at hfirst
  exact ((reached pt va (k + k')).unique (hfirst.trans (reached pt (va + k) k'))).2

theorem copyout_of_short {k k' : ℕ} (h : copyout pt va k = false) :
    copyout pt va (k + k') = false := by
  have hfirst := reached pt va k
  rw [h] at hfirst
  exact ((reached pt va (k + k')).unique (hfirst.short k')).2

/-- After a `copyout` that succeeded the next address is an address. -/
theorem add_lt_of_copyout (hva : va < 2 ^ 64) (h : copyout pt va len = true) :
    va + len < 2 ^ 64 := by
  rcases Nat.eq_zero_or_pos len with rfl | hpos
  · exact hva
  · have hreached := reached pt va len
    rw [h] at hreached
    have hlen : (reach pt va len).length = len := hreached.ok_iff.mp rfl
    have hlast : va + (len - 1) < maxVA := by
      apply @lt_of_translate pt
      rw [hreached.addr (len - 1) (by omega)]
      exact Option.some_ne_none _
    simp only [maxVA] at hlast
    omega

theorem reach_add {k k' : ℕ} (h : copyout pt va k = true) :
    reach pt va (k + k') = reach pt va k ++ reach pt (va + k) k' := by
  have hfirst := reached pt va k
  rw [h] at hfirst
  exact ((reached pt va (k + k')).unique (hfirst.trans (reached pt (va + k) k'))).1

theorem reach_of_short {k k' : ℕ} (h : copyout pt va k = false) :
    reach pt va (k + k') = reach pt va k := by
  have hfirst := reached pt va k
  rw [h] at hfirst
  exact ((reached pt va (k + k')).unique (hfirst.short k')).1

theorem length_reach_iff : copyout pt va len = true ↔ (reach pt va len).length = len :=
  (reached pt va len).ok_iff

theorem zip_take_of_length_le {α β : Type*} {l : List α} {l' : List β} {k : ℕ} (h : l.length ≤ k) :
    l.zip (l'.take k) = l.zip l' := by
  apply List.ext_getElem
  · rw [List.length_zip, List.length_zip, List.length_take]
    omega
  · intro j _ _
    simp only [List.getElem_zip, List.getElem_take]

theorem zip_append_of_le {α β : Type*} {l₁ l₂ : List α} {l : List β} {k : ℕ} (h₁ : l₁.length = k)
    (hk : k ≤ l.length) : (l₁ ++ l₂).zip l = l₁.zip l ++ l₂.zip (l.drop k) := by
  have hlen : l₁.length = (l.take k).length := by rw [h₁, List.length_take_of_le hk]
  rw [← zip_take_of_length_le h₁.le, ← List.zip_append hlen, List.take_append_drop]

theorem copyoutBytes_eq (pt : PageTable) (ram : Ram) (va : ℕ) (src : List UInt8) :
    copyoutBytes pt ram va src
      = (applyUpdates ram ((reach pt va src.length).zip src), copyout pt va src.length) := by
  show (_, (copyAddrs pt src.length va src.length).2) = _
  rw [copyAddrs_ok]
  rfl

/-- **One `copyout` after the other is one `copyout`**, if the first succeeds. -/
theorem copyoutBytes_append (pt : PageTable) (ram : Ram) (va : ℕ) (xs ys : List UInt8) :
    copyoutBytes pt ram va (xs ++ ys) =
      if copyout pt va xs.length = true then
        copyoutBytes pt (copyoutBytes pt ram va xs).1 (va + xs.length) ys
      else copyoutBytes pt ram va xs := by
  have hxs := reached pt va xs.length
  have hall := reached pt va (xs ++ ys).length
  rw [copyoutBytes_eq, copyoutBytes_eq pt ram va xs, copyoutBytes_eq]
  rw [List.length_append] at hall ⊢
  cases hok : copyout pt va xs.length with
  | true =>
    rw [hok] at hxs
    obtain ⟨haddrs, hboth⟩ := hall.unique (hxs.trans (reached pt (va + xs.length) ys.length))
    rw [if_pos rfl, haddrs, hboth, List.zip_append (hxs.ok_iff.mp rfl), applyUpdates_append]
  | false =>
    rw [hok] at hxs
    obtain ⟨haddrs, hboth⟩ := hall.unique (hxs.short ys.length)
    rw [if_neg Bool.false_ne_true, haddrs, hboth]
    -- there is no address for the rest
    have hzip : (reach pt va xs.length).zip (xs ++ ys) = (reach pt va xs.length).zip xs := by
      have hle := hxs.le
      apply List.ext_getElem
      · rw [List.length_zip, List.length_zip, List.length_append]
        omega
      · intro j h₁ h₂
        rw [List.length_zip] at h₂
        rw [List.getElem_zip, List.getElem_zip, List.getElem_append_left (by omega)]
    rw [hzip]

theorem add64_of_copyout (hva : va < 2 ^ 64) (h : copyout pt va len = true) :
    add64 va len = va + len :=
  Nat.mod_eq_of_lt (add_lt_of_copyout hva h)

end Xv6Zig
