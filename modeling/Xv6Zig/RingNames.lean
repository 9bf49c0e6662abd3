/-
Xv6Zig/RingNames.lean

The names of ring buffers, from user memory to the slot (`kernel/ringbuf.zig`,
`copyinstr` of `kernel/vm.c`).

`sys_ringbuf` has `argstr` copy the name into sixteen zero bytes of its own.
`copyinstr` goes page by page and byte by byte; each byte that it reads it also
stores, the terminator included, and it fails if the terminator is not among the first
sixteen.  Byte by byte it is a walk over the translations (`copyinstr_eq`).

`activate` then copies the name into the slot with a `@memcpy` whose operands are the
sixteen bytes of `name_buf` and the name without its terminator.  These have different
lengths, which the language does not allow.  What the unchecked build does is copy as
many bytes as the destination has, and behind the name there are only zeros: so the
slot has exactly the name, whatever it had before.

Main result: `names_bind`.
-/
import Mathlib.Data.List.TakeWhile
import Xv6Zig.RingMapping

namespace Xv6Zig

open Lib Function

/-! ### `copyinstr` -/

/-- The inner loop of `copyinstr`, over at most `n` bytes from `p` on: where it reads,
and whether it got to a null. -/
def strInPage (ram : Ram) : ℕ → ℕ → List ℕ × Bool
  | 0, _ => ([], false)
  | n + 1, p =>
      if ram p = 0 then ([p], true)
      else
        let (rest, got) := strInPage ram n (p + 1)
        (p :: rest, got)

/-- `copyinstr`: where it reads the bytes that it stores, and whether it returns 0. -/
def copyinstr (pt : PageTable) (ram : Ram) : ℕ → ℕ → ℕ → List ℕ × Bool
  | 0, _, _ => ([], false)
  | fuel + 1, va, max =>
      if max = 0 then ([], false)
      else
        let va0 := pgRoundDown va
        match walkaddr pt va0 with
        | none => ([], false)
        | some pa0 =>
            let n := min (pgSize - (va - va0)) max
            let (addrs, got) := strInPage ram n (pa0 + (va - va0))
            if got then (addrs, true)
            else
              let (rest, ok) := copyinstr pt ram fuel (va0 + pgSize) (max - n)
              (addrs ++ rest, ok)

/-- The same byte by byte. -/
def strAddrs (pt : PageTable) (ram : Ram) : ℕ → ℕ → List ℕ × Bool
  | 0, _ => ([], false)
  | n + 1, va =>
      match translate pt va with
      | none => ([], false)
      | some a =>
          if ram a = 0 then ([a], true)
          else
            let (rest, ok) := strAddrs pt ram n (va + 1)
            (a :: rest, ok)

variable {pt : PageTable} {ram : Ram} {va n m : ℕ} {name : List UInt8}

theorem strAddrs_page {pa : ℕ} (hw : walkaddr pt (pgRoundDown va) = some pa)
    (hn : va - pgRoundDown va + n ≤ pgSize) :
    strAddrs pt ram (n + m) va =
      if (strInPage ram n (pa + (va - pgRoundDown va))).2 then
        ((strInPage ram n (pa + (va - pgRoundDown va))).1, true)
      else ((strInPage ram n (pa + (va - pgRoundDown va))).1 ++ (strAddrs pt ram m (va + n)).1,
        (strAddrs pt ram m (va + n)).2) := by
  induction n generalizing va with
  | zero =>
    rw [Nat.zero_add]
    rfl
  | succ n ih =>
    have hoff : va % pgSize = va - pgRoundDown va := by
      simp only [pgRoundDown, pgSize]
      omega
    have htr : translate pt va = some (pa + (va - pgRoundDown va)) := by
      unfold translate
      rw [hw, hoff]
      rfl
    rw [Nat.add_right_comm, strAddrs, htr, strInPage]
    dsimp only
    by_cases hzero : ram (pa + (va - pgRoundDown va)) = 0
    · rw [if_pos hzero, if_pos hzero, if_pos rfl]
    · rw [if_neg hzero, if_neg hzero]
      rcases Nat.eq_zero_or_pos n with rfl | hpos
      · rw [Nat.zero_add]
        rfl
      · -- the next byte is in the same page
        have hround : pgRoundDown (va + 1) = pgRoundDown va := by
          simp only [pgRoundDown, pgSize] at hn ⊢
          omega
        have hnext : va + 1 - pgRoundDown va = va - pgRoundDown va + 1 := by
          simp only [pgRoundDown, pgSize]
          omega
        have hrest := @ih (va + 1) (by rw [hround]; exact hw) (by rw [hround, hnext]; omega)
        rw [hround, hnext, ← Nat.add_assoc] at hrest
        rw [hrest, Nat.add_assoc va 1 n, Nat.add_comm 1 n]
        split_ifs <;> rfl

/-- **The loops over pages are one over bytes.** -/
theorem copyinstr_eq {fuel max : ℕ} (hmax : max ≤ fuel) (va : ℕ) :
    copyinstr pt ram fuel va max = strAddrs pt ram max va := by
  induction fuel generalizing va max with
  | zero =>
    obtain rfl := Nat.le_zero.mp hmax
    rfl
  | succ fuel ih =>
    rw [copyinstr]
    rcases Nat.eq_zero_or_pos max with rfl | hpos
    · rfl
    rw [if_neg hpos.ne']
    dsimp only
    rcases hw : walkaddr pt (pgRoundDown va) with - | pa
    · obtain ⟨n, rfl⟩ := Nat.exists_eq_succ_of_ne_zero hpos.ne'
      have htr : translate pt va = none := by
        unfold translate
        rw [hw]
        rfl
      rw [strAddrs, htr]
    · have hle : va - pgRoundDown va < pgSize := by
        simp only [pgRoundDown, pgSize]
        omega
      generalize hn : min (pgSize - (va - pgRoundDown va)) max = n
      have hsplit := @strAddrs_page pt ram va n (max - n) pa hw (by omega)
      rw [Nat.add_sub_cancel' (by omega)] at hsplit
      rw [hsplit]
      dsimp only
      split_ifs with hgot
      · rfl
      · rcases Nat.eq_zero_or_pos (max - n) with hzero | hrest
        · rw [hzero]
          cases fuel <;> rfl
        · have hva : pgRoundDown va + pgSize = va + n := by
            simp only [pgRoundDown, pgSize] at hn hrest ⊢
            omega
          rw [hva, ih (by omega)]

/-- It reads the bytes from `va` on, one after the other. -/
theorem strAddrs_addr (n va : ℕ) : (strAddrs pt ram n va).1.length ≤ n ∧
    ∀ j a, (strAddrs pt ram n va).1[j]? = some a → translate pt (va + j) = some a := by
  induction n generalizing va with
  | zero => exact ⟨le_rfl, nofun⟩
  | succ n ih =>
    obtain ⟨hlen, haddr⟩ := ih (va + 1)
    rcases htr : translate pt va with - | b
    · rw [strAddrs, htr]
      exact ⟨Nat.zero_le _, nofun⟩
    rw [strAddrs, htr]
    dsimp only
    split_ifs with hzero
    · refine ⟨Nat.succ_le_succ (Nat.zero_le n), fun j a hj => ?_⟩
      cases j with
      | zero =>
        cases hj
        exact htr
      | succ j => cases hj
    · refine ⟨Nat.succ_le_succ hlen, fun j a hj => ?_⟩
      cases j with
      | zero =>
        cases hj
        exact htr
      | succ j =>
        rw [Nat.add_comm j 1, ← Nat.add_assoc]
        exact haddr j a hj

/-- It ends with a null, and with no other. -/
theorem strAddrs_ok (n va : ℕ) (h : (strAddrs pt ram n va).2 = true) :
    ∃ s, (strAddrs pt ram n va).1.map ram = s ++ [0] ∧ 0 ∉ s := by
  induction n generalizing va with
  | zero => cases h
  | succ n ih =>
    unfold strAddrs at h ⊢
    rcases htr : translate pt va with - | a
    · rw [htr] at h
      cases h
    rw [htr] at h
    dsimp only at h ⊢
    split_ifs at h ⊢ with hzero
    · exact ⟨[], congrArg (fun c => [c]) hzero, List.not_mem_nil⟩
    · obtain ⟨s, hs, hnot⟩ := ih (va + 1) h
      refine ⟨ram a :: s, congrArg (ram a :: ·) hs, ?_⟩
      rw [List.mem_cons, not_or]
      exact ⟨fun h0 => hzero h0.symm, hnot⟩

/-- The user's string at `va`. -/
structure NameAt (pt : PageTable) (ram : Ram) (va : ℕ) (name : List UInt8) : Prop where
  nonzero : 0 ∉ name
  byte : ∀ j (h : j < name.length), readAt pt ram (va + j) = some name[j]
  terminator : readAt pt ram (va + name.length) = some 0

/-- A string that is short enough is copied with its terminator. -/
theorem strAddrs_of_nameAt (h : NameAt pt ram va name) (hn : name.length < n) :
    (strAddrs pt ram n va).1.map ram = name ++ [0] ∧ (strAddrs pt ram n va).2 = true := by
  induction name generalizing va n with
  | nil =>
    obtain ⟨n, rfl⟩ := Nat.exists_eq_succ_of_ne_zero (Nat.ne_zero_of_lt hn)
    obtain ⟨a, ha, hzero⟩ := Option.map_eq_some_iff.mp h.terminator
    rw [List.length_nil, Nat.add_zero] at ha
    rw [strAddrs, ha]
    dsimp only
    rw [if_pos hzero]
    exact ⟨congrArg (fun c => [c]) hzero, rfl⟩
  | cons c name ih =>
    obtain ⟨n, rfl⟩ := Nat.exists_eq_succ_of_ne_zero (Nat.ne_zero_of_lt hn)
    obtain ⟨hc, hnot⟩ := not_or.mp (List.mem_cons.not.mp h.nonzero)
    obtain ⟨a, ha, hbyte⟩ := Option.map_eq_some_iff.mp (h.byte 0 (Nat.succ_pos _))
    have hbyte : ram a = c := hbyte
    have hrest : NameAt pt ram (va + 1) name := by
      refine ⟨hnot, fun j hj => ?_, ?_⟩
      · rw [Nat.add_assoc, Nat.add_comm 1 j]
        exact h.byte (j + 1) (Nat.succ_lt_succ hj)
      · rw [Nat.add_assoc, Nat.add_comm 1]
        exact h.terminator
    obtain ⟨hmap, hok⟩ := ih hrest (Nat.lt_of_succ_lt_succ hn)
    rw [Nat.add_zero] at ha
    rw [strAddrs, ha]
    dsimp only
    rw [if_neg (by rw [hbyte]; exact fun h0 => hc h0.symm)]
    refine ⟨?_, hok⟩
    rw [List.map_cons, hmap, hbyte]
    rfl

/-- A string that is too long is not copied. -/
theorem strAddrs_of_long (h : ∀ j < n, ∃ c, c ≠ 0 ∧ readAt pt ram (va + j) = some c) :
    (strAddrs pt ram n va).2 = false := by
  induction n generalizing va with
  | zero => rfl
  | succ n ih =>
    obtain ⟨c, hc, hread⟩ := h 0 (Nat.succ_pos n)
    obtain ⟨a, ha, hbyte⟩ := Option.map_eq_some_iff.mp hread
    rw [Nat.add_zero] at ha
    rw [strAddrs, ha]
    dsimp only
    rw [if_neg (by rw [hbyte]; exact hc)]
    apply ih
    intro j hj
    obtain ⟨c', hc', hread'⟩ := h (j + 1) (Nat.succ_lt_succ hj)
    refine ⟨c', hc', ?_⟩
    rw [Nat.add_assoc, Nat.add_comm 1 j]
    exact hread'

/-! ### The name in `sys_ringbuf` -/

/-- `argstr(0, &name, MAX_NAME_LEN)`: where it reads, and whether it succeeds. -/
def argstr (pt : PageTable) (ram : Ram) (va : ℕ) : List ℕ × Bool :=
  copyinstr pt ram maxNameLen va maxNameLen

theorem argstr_eq : argstr pt ram va = strAddrs pt ram maxNameLen va := copyinstr_eq le_rfl va

/-- The array `name` after it, which was all zeros. -/
def nameArray (pt : PageTable) (ram : Ram) (va : ℕ) : List UInt8 :=
  let copied := (argstr pt ram va).1.map ram
  copied ++ List.replicate (maxNameLen - copied.length) 0

theorem length_nameArray : (nameArray pt ram va).length = maxNameLen := by
  have hlen := (@strAddrs_addr pt ram maxNameLen va).1
  unfold nameArray
  rw [argstr_eq, List.length_append, List.length_replicate, List.length_map]
  omega

/-- An array with a null in it ends before its end. -/
theorem length_takeWhile_lt {l : List UInt8} (h : 0 ∈ l) :
    (l.takeWhile (· ≠ 0)).length < l.length := by
  refine lt_of_le_of_ne (List.takeWhile_prefix _).length_le fun hlen => ?_
  have heq := (List.takeWhile_prefix (l := l) (· ≠ 0)).eq_of_length hlen
  rw [← heq] at h
  simpa using List.mem_takeWhile_imp h

/-- The name that `ringbuf` is called with, if `argstr` succeeds. -/
def argName (pt : PageTable) (ram : Ram) (va : ℕ) : Option CStr :=
  if h : (argstr pt ram va).2 = true then
    some ⟨(nameArray pt ram va).takeWhile (· ≠ 0), (by
      intro h0
      simpa using List.mem_takeWhile_imp h0), (by
      have hmem : 0 ∈ nameArray pt ram va := by
        rw [argstr_eq] at h
        obtain ⟨s, hs, -⟩ := strAddrs_ok maxNameLen va h
        unfold nameArray
        rw [argstr_eq, hs]
        simp
      exact lt_of_lt_of_eq (length_takeWhile_lt hmem) length_nameArray)⟩
  else none

/-- A short string arrives, with zeros behind it. -/
theorem argName_of_nameAt (h : NameAt pt ram va name) (hn : name.length < maxNameLen) :
    nameArray pt ram va = nameBufOf name ∧ ∃ str, argName pt ram va = some str ∧
      str.bytes = name := by
  obtain ⟨hmap, hok⟩ := strAddrs_of_nameAt h hn
  have harray : nameArray pt ram va = nameBufOf name := by
    unfold nameArray
    rw [argstr_eq, hmap, nameBufOf_eq hn.le, List.append_assoc]
    congr 1
    rw [List.length_append, List.length_singleton, List.singleton_append, ← List.replicate_succ]
    congr 1
    omega
  refine ⟨harray, ?_⟩
  unfold argName
  rw [dif_pos (by rw [argstr_eq]; exact hok)]
  refine ⟨_, rfl, ?_⟩
  rw [← takeWhile_nameBufOf h.nonzero hn.le, ← harray]

theorem argName_of_long (h : ∀ j < maxNameLen, ∃ c, c ≠ 0 ∧ readAt pt ram (va + j) = some c) :
    argName pt ram va = none := by
  unfold argName
  rw [dif_neg]
  rw [argstr_eq, strAddrs_of_long h]
  exact Bool.false_ne_true

/-! ### The name in the slot -/

/-- What the language asks of the operands of `@memcpy`. -/
def MemcpyLegal (dest source : List UInt8) : Prop := dest.length = source.length

namespace Kernel

variable {k : Kernel} {r : RingIx}

theorem nameBuf_of_activate {rb rb' : Ringbuf} {m m' : Kmem}
    (h : rb.activate m name = .ok (m', rb', .ok ())) : rb'.nameBuf = nameBufOf name := by
  unfold Ringbuf.activate at h
  split_ifs at h with hactive hlen
  · cases (Prod.mk.inj (Prod.mk.inj (Except.ok.inj h)).2).2
  · cases (Prod.mk.inj (Prod.mk.inj (Except.ok.inj h)).2).2
  · dsimp only at h
    split_ifs at h with hfail
    · obtain ⟨m₁, -, h⟩ := bind_eq_ok.mp h
      obtain ⟨m₂, -, h⟩ := bind_eq_ok.mp h
      cases (Prod.mk.inj (Prod.mk.inj (Except.ok.inj h)).2).2
    · obtain ⟨-, hrest⟩ := Prod.mk.inj (Except.ok.inj h)
      rw [← (Prod.mk.inj hrest).1]

/-- The slot with the name, and no other slot has it. -/
theorem findRingbufByName_iff {rb : Ringbuf} {m : Kmem} {c : ℕ} (hzero : 0 ∉ name)
    (hlen : name.length ≤ maxNameLen) (hnew : k.findRingbufByName name = none)
    (hbuf : rb.nameBuf = nameBufOf name) (hc : c ≠ 0) (s : List UInt8) :
    ({ k with mem := m }.setRing r { rb with refcount := c }).findRingbufByName s = some r ↔
      s = name := by
  have hname : ({ rb with refcount := c } : Ringbuf).name = name := by
    show rb.nameBuf.takeWhile (· ≠ 0) = name
    rw [hbuf]
    exact takeWhile_nameBufOf hzero hlen
  constructor
  · intro hfind
    obtain ⟨-, hs⟩ := of_findRingbufByName hfind
    rw [setRing_ringbufs, update_self, hname] at hs
    exact hs.symm
  · rintro rfl
    rcases hfind : ({ k with mem := m }.setRing r { rb with refcount := c }).findRingbufByName s
      with - | r'
    · have hne := findRingbufByName_eq_none hfind r
      rw [setRing_ringbufs, update_self] at hne
      exact absurd hname (hne hc)
    · obtain ⟨hcount, hs⟩ := of_findRingbufByName hfind
      rcases eq_or_ne r' r with rfl | hr
      · exact hfind
      · rw [setRing_ringbufs, update_of_ne hr] at hcount hs
        exact absurd hs (findRingbufByName_eq_none hnew r' hcount)

/-- A name that `argstr` cannot copy, or that is empty. -/
theorem sysRingbuf_badName {p : ProcIx} {op : Int32} {addr vaddr : ℕ} :
    k.sysRingbuf p none op addr vaddr = .ok (k, intFromErr .badNameLength) ∧
      ∀ str : CStr, str.bytes = [] →
        (k.sysRingbuf p (some str) op addr vaddr = .ok (k, intFromErr .badNameLength) ↔
          op = 0 ∨ op = 1) := by
  refine ⟨rfl, fun str hempty => ?_⟩
  rcases sysRingbuf_cases k p (some str) op addr vaddr with
    ⟨-, hop, hr⟩ | ⟨-, h0, h1, hr⟩ | ⟨rfl, name, hstr, hr⟩ | ⟨name, hname, rfl, hr⟩
  · rw [hr]
    exact ⟨fun _ => hop.resolve_left (Option.some_ne_none _), fun _ => rfl⟩
  · rw [hr]
    exact ⟨(fun h => nomatch h), fun h => absurd h (not_or.mpr ⟨h0, h1⟩)⟩
  · refine ⟨fun _ => .inl rfl, fun _ => ?_⟩
    simp [sysRingbuf, Op.fromInt, ringbuf, hempty]
  · obtain ⟨hstr, -, hne⟩ := mem_opens.mp hname
    exact absurd hempty (Option.some.inj hstr ▸ hne)

/-- **A slot is bound to exactly the name that it was activated with**, and names that
are empty or too long do not get that far; of user memory at most sixteen bytes are
read.  The operands of the `@memcpy` in `activate` have one length only for names of
sixteen bytes, of which there are none. -/
theorem names_bind {m : Kmem} {rb : Ringbuf} (hzero : 0 ∉ name)
    (hshort : name.length < maxNameLen) (hbuf : (k.ringbufs r).nameBuf.length = maxNameLen)
    (hnew : k.findRingbufByName name = none)
    (hact : (k.ringbufs r).activate k.mem name = .ok (m, rb, .ok ())) :
    (rb.nameBuf = name ++ List.replicate (maxNameLen - name.length) 0 ∧
      ¬ MemcpyLegal (k.ringbufs r).nameBuf name ∧
      (∀ s, MemcpyLegal (k.ringbufs r).nameBuf s ↔ s.length = maxNameLen) ∧
      ∀ c ≠ 0, ∀ s, ({ k with mem := m }.setRing r
        { rb with refcount := c }).findRingbufByName s = some r ↔ s = name) ∧
    ∀ (k : Kernel) (p : ProcIx) (ram : Ram) (va : ℕ) (op : Int32) (addr vaddr : ℕ),
      ((argstr (k.procs p).pagetable ram va).1.length ≤ maxNameLen ∧
        ∀ j a, (argstr (k.procs p).pagetable ram va).1[j]? = some a →
          translate (k.procs p).pagetable (va + j) = some a) ∧
      (∀ name, NameAt (k.procs p).pagetable ram va name → name.length < maxNameLen →
        nameArray (k.procs p).pagetable ram va = nameBufOf name ∧
          ∃ str, argName (k.procs p).pagetable ram va = some str ∧ str.bytes = name) ∧
      ((∀ j < maxNameLen, ∃ c, c ≠ 0 ∧ readAt (k.procs p).pagetable ram (va + j) = some c) →
        k.sysRingbuf p (argName (k.procs p).pagetable ram va) op addr vaddr
          = .ok (k, intFromErr .badNameLength)) ∧
      (readAt (k.procs p).pagetable ram va = some 0 →
        (k.sysRingbuf p (argName (k.procs p).pagetable ram va) op addr vaddr
          = .ok (k, intFromErr .badNameLength) ↔ op = 0 ∨ op = 1)) := by
  have hname := nameBuf_of_activate hact
  have hlegal : ∀ s, MemcpyLegal (k.ringbufs r).nameBuf s ↔ s.length = maxNameLen := by
    intro s
    unfold MemcpyLegal
    rw [hbuf]
    exact eq_comm
  refine ⟨⟨hname.trans (nameBufOf_eq hshort.le), ?_, hlegal,
    fun c hc s => findRingbufByName_iff hzero hshort.le hnew hname hc s⟩, ?_⟩
  · rw [hlegal]
    exact hshort.ne
  · intro k p ram va op addr vaddr
    refine ⟨?_, fun name h hn => argName_of_nameAt h hn, fun hlong => ?_, fun hempty => ?_⟩
    · rw [argstr_eq]
      exact strAddrs_addr maxNameLen va
    · rw [argName_of_long hlong]
      exact sysRingbuf_badName.1
    · have hat : NameAt (k.procs p).pagetable ram va [] := ⟨List.not_mem_nil, nofun, hempty⟩
      obtain ⟨-, str, hstr, hbytes⟩ := argName_of_nameAt hat (by decide)
      rw [hstr]
      exact sysRingbuf_badName.2 str hbytes

/-- The first process of a fresh kernel can activate a slot. -/
theorem demo_activates : ∃ k, demo = some k ∧ k.findRingbufByName demoName.bytes = none ∧
    (k.ringbufs 0).nameBuf.length = maxNameLen ∧
    ((k.ringbufs 0).activate k.mem demoName.bytes).toOption.map (fun s => errorOf s.2.2)
      = some none :=
  exists_of_decide (by decide +kernel)

theorem exists_activate : ∃ k m rb, Initial k ∧ k.findRingbufByName demoName.bytes = none ∧
    (k.ringbufs 0).nameBuf.length = maxNameLen ∧
    (k.ringbufs 0).activate k.mem demoName.bytes = .ok (m, rb, .ok ()) := by
  obtain ⟨k, hk, hnew, hbuf, hact⟩ := demo_activates
  obtain ⟨⟨m, rb, res⟩, hres, hok⟩ := Option.map_eq_some_iff.mp hact
  obtain rfl : res = .ok () := by
    rcases res with e | -
    · cases hok
    · rfl
  exact ⟨k, m, rb, demo_initial hk, hnew, hbuf, toOption_eq_some hres⟩

theorem names_bind_demo : ∃ k m rb, Initial k ∧
    (k.ringbufs 0).activate k.mem demoName.bytes = .ok (m, rb, .ok ()) ∧
    rb.nameBuf = [97] ++ List.replicate 15 0 ∧
    ({ k with mem := m }.setRing 0 { rb with refcount := 1 }).findRingbufByName [97] = some 0 := by
  obtain ⟨k, m, rb, hinit, hnew, hbuf, hact⟩ := exists_activate
  obtain ⟨⟨hname, -, -, hfind⟩, -⟩ := names_bind demoName.nonzero demoName.short hbuf hnew hact
  exact ⟨k, m, rb, hinit, hact, hname, (hfind 1 one_ne_zero [97]).mpr rfl⟩

/-- The first activation of a kernel copies one byte to sixteen. -/
theorem memcpy_lengths_differ : ∃ k m rb, Initial k ∧
    (k.ringbufs 0).activate k.mem demoName.bytes = .ok (m, rb, .ok ()) ∧
    ¬ MemcpyLegal (k.ringbufs 0).nameBuf demoName.bytes := by
  obtain ⟨k, m, rb, hinit, -, hbuf, hact⟩ := exists_activate
  refine ⟨k, m, rb, hinit, hact, ?_⟩
  unfold MemcpyLegal
  rw [hbuf]
  decide

end Kernel

end Xv6Zig
