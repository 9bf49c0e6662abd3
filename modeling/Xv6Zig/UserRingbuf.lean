/-
Xv6Zig/UserRingbuf.lean

The user's table of ring buffers (`user/ulib/uringbuf.zig`).

A process has ten slots.  `init` looks for the name and for an inactive slot in
one scan: it compares the name first, also with that of an inactive slot, where
the name of the ring buffer that was there last is left, and it stops at the
first inactive slot, also if the name stands in a later one.

A slot keeps the caller's pointer, not the name.  The string there is read again by
every call, and the caller may have changed it; an undefined pointer points anywhere.

The table and the kernel agree nevertheless (`Agree`): an active slot is the ring
buffer of the name it was opened with, and a slot is closed only by its own address.
What `init` returns is right exactly when its scan ends at the right slot
(`init_ok_iff`).
-/
import Xv6Zig.Regions

namespace Xv6Zig

open Lib Kernel Function

/-! ### The library -/

/-- A string in the memory of the process, up to its terminator. -/
structure ZStr where
  bytes : List UInt8
  nonzero : 0 ∉ bytes
  deriving DecidableEq

/-- What `argstr` makes of it. -/
def ZStr.argstr (s : ZStr) : Option CStr :=
  if h : s.bytes.length < maxNameLen then some ⟨s.bytes, s.nonzero, h⟩ else none

/-- `errFromInt`. -/
def errFromInt (val : ℤ) : Option RingbufError :=
  RingbufError.fields.find? fun e => val = intFromErr e

/-- How the process or the kernel stops. -/
inductive UserPanic
  | kernel (e : Panic)
  /-- "bad error value" -/
  | badErrorValue
  /-- "uringbuf: already inactive" -/
  | alreadyInactive
  /-- "uringbuf: failed to close" -/
  | failedToClose
  deriving DecidableEq

/-- `name` is where the caller has the string. -/
structure UserRingBuf where
  buf : ℕ
  book : ℕ
  name : ℕ
  isActive : Bool

/-- An index into `uringbufs`. -/
abbrev UringbufDescriptor := Fin 10

/-- `uringbufs`. -/
abbrev Uringbufs := UringbufDescriptor → UserRingBuf

/-- The strings in the memory of the process, by their addresses. -/
abbrev Texts := ℕ → ZStr

/-- `sys.ringbuf`. -/
def sysUserRingbuf (k : Kernel) (p : ProcIx) (name : ZStr) (op : Int32) (addr vaddr : ℕ) :
    Except UserPanic (Kernel × Except RingbufError Unit) :=
  match k.sysRingbuf p name.argstr op addr vaddr with
  | .error e => .error (.kernel e)
  | .ok (k, res) =>
      if res < 0 then
        match errFromInt res with
        | some e => .ok (k, .error e)
        | none => .error .badErrorValue
      else .ok (k, .ok ())

/-- `ringbuf_loc`, which an open has stored for the user: `top_free_uvm_pg + 2 * PGSIZE`,
before the guard page was left. -/
def ringbufLoc (k : Kernel) (p : ProcIx) : ℕ :=
  add64 (k.procs p).topFreeUvmPg (3 * pgSize)

namespace UserRingBuf

/-- What `open` puts into the slot. -/
def opened (k : Kernel) (p : ProcIx) (name : ℕ) : UserRingBuf :=
  let bufU := ringbufLoc k p
  { buf := bufU, book := bufU - pgSize, name := name, isActive := true }

/-- `open`; `buf_p` is at `sp`. -/
def «open» (u : UserRingBuf) (text : Texts) (k : Kernel) (p : ProcIx) (sp name : ℕ) :
    Except UserPanic (Kernel × UserRingBuf × Except RingbufError Unit) :=
  if u.isActive then .ok (k, u, .error .alreadyActive)
  else do
    let (k, res) ← sysUserRingbuf k p (text name) 1 sp 0
    match res with
    | .error e => .ok (k, u, .error e)
    | .ok () => .ok (k, opened k p name, .ok ())

/-- `close`; the slot's `buf` is at `at`. -/
def close (u : UserRingBuf) (text : Texts) (k : Kernel) (p : ProcIx) (bufAt : ℕ) :
    Except UserPanic (Kernel × UserRingBuf) :=
  if u.isActive then do
    let (k, res) ← sysUserRingbuf k p (text u.name) 0 bufAt u.buf
    match res with
    | .error _ => .error .failedToClose
    | .ok () => .ok (k, { u with isActive := false })
  else .error .alreadyInactive

end UserRingBuf

/-- Where the loop of `init` stops. -/
def scan (text : Texts) (t : Uringbufs) (name : ℕ) : Option UringbufDescriptor :=
  (List.finRange 10).find? fun i => text name = text (t i).name ∨ ¬ (t i).isActive

def init (text : Texts) (k : Kernel) (t : Uringbufs) (p : ProcIx) (sp name : ℕ) :
    Except UserPanic (Kernel × Uringbufs × Except RingbufError UringbufDescriptor) :=
  match scan text t name with
  | none => .ok (k, t, .error .noFreeRingbuf)
  | some i =>
      if text name = text (t i).name then .ok (k, t, .ok i)
      else do
        let (k, u, res) ← (t i).open text k p sp name
        let t := update t i u
        match res with
        | .error e => .ok (k, t, .error e)
        | .ok () => .ok (k, t, .ok i)

/-- `deinit`; `bufAt` says where the slots have their `buf`. -/
def deinit (text : Texts) (k : Kernel) (t : Uringbufs) (p : ProcIx)
    (bufAt : UringbufDescriptor → ℕ) (d : UringbufDescriptor) :
    Except UserPanic (Kernel × Uringbufs) := do
  let (k, u) ← (t d).close text k p (bufAt d)
  .ok (k, update t d u)

/-! ### Runs -/

/-- The kernel and the table of one process.  `names` is what only the proofs know: the
string that each active slot was opened with. -/
structure Client where
  kernel : Kernel
  table : Uringbufs
  names : UringbufDescriptor → ZStr

/-- A call of the library, with the strings as they are then and what it returned, or a
ring-buffer call of another process. -/
inductive ClientEv
  | init (text : Texts) (name : ℕ) (ret : Except RingbufError UringbufDescriptor)
  | deinit (text : Texts) (d : UringbufDescriptor)
  | other (j : ProcIx) (str : Option CStr) (op : Int32) (addr vaddr : ℕ)

/-- A slot that becomes active is opened with the string of the call. -/
def Client.namesAfter (s : Client) (str : ZStr) (d : UringbufDescriptor) : ZStr :=
  if (s.table d).isActive then s.names d else str

/-- A step of process `p`, whose stack and table are where `sp` and `bufAt` say,
or of another process. -/
def ClientStep (p : ProcIx) (sp : ℕ) (bufAt : UringbufDescriptor → ℕ) (s : Client) :
    ClientEv → Client → Prop
  | .init text name ret, s' => s.kernel.Running p ∧ s'.names = s.namesAfter (text name) ∧
      Xv6Zig.init text s.kernel s.table p sp name = .ok (s'.kernel, s'.table, ret)
  | .deinit text d, s' => s.kernel.Running p ∧ s'.names = s.names ∧
      (s.table d).isActive = true ∧
      Xv6Zig.deinit text s.kernel s.table p bufAt d = .ok (s'.kernel, s'.table)
  | .other j str op addr vaddr, s' => j ≠ p ∧ s.kernel.Running j ∧ s'.table = s.table ∧
      s'.names = s.names ∧ ∃ n, s.kernel.sysRingbuf j str op addr vaddr = .ok (s'.kernel, n)

/-- A process that has no ring buffer yet. -/
structure Client.Start (p : ProcIx) (s : Client) : Prop where
  reachable : Reachable s.kernel
  notOwner : ∀ r, ¬ s.kernel.Owns p r
  inactive : ∀ d, (s.table d).isActive = false

/-! ### What the kernel keeps -/

variable {k k' : Kernel} {p j : ProcIx} {r : RingIx} {c : Fin 2} {addr vaddr : ℕ}
  {name : List UInt8} {res : Except RingbufError Unit} {o : Owner}

/-- Process `p` is owner `o` of the ring buffer with the name. -/
structure Has (k : Kernel) (p : ProcIx) (name : List UInt8) (buf book : ℕ) (r : RingIx) (c : Fin 2) :
    Prop where
  name : (k.ringbufs r).name = name
  owner : (k.ringbufs r).owners c = ⟨some p, some buf, some book⟩

namespace Has

variable {nm : List UInt8} {buf book : ℕ}

theorem owns (h : Has k p nm buf book r c) : ((k.ringbufs r).owners c).proc = some p := by
  rw [h.owner]

theorem active (h : Has k p nm buf book r c) (hinv : Inv k) : (k.ringbufs r).refcount ≠ 0 :=
  (hinv.ring r).active_of_owner h.owns

/-- It is the one that the kernel finds by the name. -/
theorem find (h : Has k p nm buf book r c) (hinv : Inv k) : k.findRingbufByName nm = some r := by
  rcases hf : k.findRingbufByName nm with - | s
  · exact absurd h.name (findRingbufByName_eq_none hf r (h.active hinv))
  · obtain ⟨hact, hname⟩ := of_findRingbufByName hf
    rw [hinv.name s r hact (h.active hinv) (hname.trans h.name.symm)]

/-- A process has at an address one ring buffer. -/
theorem unique {nm' : List UInt8} {book' : ℕ} {r' : RingIx} {c' : Fin 2} (hinv : Inv k)
    (h : Has k p nm buf book r c) (h' : Has k p nm' buf book' r' c') : r = r' := by
  obtain ⟨-, b, hatt⟩ := hinv.owner r c p h.owns
  obtain ⟨-, b', hatt'⟩ := hinv.owner r' c' p h'.owns
  obtain rfl : b = b' := by
    have hvbuf := hatt.vbuf
    rw [h.owner] at hvbuf
    have hvbuf' := hatt'.vbuf
    rw [h'.owner, Option.some.inj hvbuf] at hvbuf'
    have := Nat.eq_of_mul_eq_mul_right pgSize_pos (Option.some.inj hvbuf')
    omega
  -- the book page is that of both
  obtain ⟨pte, hpte, hmem⟩ := hinv.attached_leaf h.owns hatt (v := b) ⟨le_rfl, by omega⟩
  obtain ⟨pte', hpte', hmem'⟩ := hinv.attached_leaf h'.owns hatt' (v := b) ⟨le_rfl, by omega⟩
  rw [Option.some.inj (hpte'.symm.trans hpte)] at hmem'
  have hsame : Purpose.ring r = .ring r' := hinv.purpose_unique hmem hmem'
  exact Purpose.ring.inj hsame

theorem of_ring (h : Has k p nm buf book r c)
    (hring : (k'.ringbufs r).nameBuf = (k.ringbufs r).nameBuf)
    (howner : (k'.ringbufs r).owners c = (k.ringbufs r).owners c) : Has k' p nm buf book r c := by
  refine ⟨?_, howner.trans h.owner⟩
  unfold Ringbuf.name
  rw [hring]
  exact h.name

end Has

/-- **An open takes no ring buffer from anyone.** -/
theorem Has.open {nm : List UInt8} {buf book : ℕ} (hhas : Has k p nm buf book r c) (h : Inv k)
    (hname : ¬ (name.length > maxNameLen ∨ name.length = 0)) (hzero : 0 ∉ name)
    (hopen : k.openRingbuf j name addr = .ok (k', res)) : Has k' p nm buf book r c := by
  have hactive := hhas.active h
  rcases open_cases h hname hzero hopen with ⟨hearly, -⟩ | ⟨-, k₁, s, i, f, bk, m, pt, hready,
    hempty, -, -, ⟨-, -, -, rfl⟩ | ⟨top, ok, hundone, -, rfl⟩⟩
  · obtain ⟨_, _, hr, -, -, -, -, hrings⟩ := open_early addr h hname hearly
    cases hr.symm.trans hopen
    exact hhas.of_ring (by rw [hrings r hactive]) (by rw [hrings r hactive])
  · by_cases hs : r = s
    · subst hs
      -- the slot that was filled was empty
      have hci : c ≠ i := by
        rintro rfl
        rw [hhas.owns] at hempty
        cases hempty
      have hkeep := hready.keep hactive
      refine hhas.of_ring ?_ ?_
      · rw [opened_ring_self, hkeep]
      · rw [opened_ring_self, hkeep]
        exact update_of_ne hci _ _
    · apply hhas.of_ring
      · rw [opened_ring_ne hs, hready.rings r hs]
      · rw [opened_ring_ne hs, hready.rings r hs]
  · -- only a slot that was idle is undone
    have hs : r ≠ s := fun heq => hactive (by rw [heq]; exact hundone.idle)
    apply hhas.of_ring
    · rw [undone_ring_ne hs, hready.rings r hs]
    · rw [undone_ring_ne hs, hready.rings r hs]

/-- **A close takes a ring buffer from nobody but the caller**, and only the one
of the name. -/
theorem Has.close {nm : List UInt8} {buf book : ℕ} (hhas : Has k p nm buf book r c) (h : Inv k)
    (hother : p ≠ j ∨ nm ≠ name)
    (hclose : k.closeRingbuf j name addr vaddr = .ok (k', res)) : Has k' p nm buf book r c := by
  obtain ⟨hinv, -, ⟨rfl, -⟩ | ⟨-, s, b, hfind, -, hclosed⟩⟩ := of_closeRingbuf h hclose
  · exact hhas
  by_cases hs : r = s
  · subst hs
    have hne : p ≠ j := by
      rcases hother with hne | hne
      · exact hne
      · exact absurd (hhas.name.symm.trans (of_findRingbufByName hfind).2) hne
    obtain ⟨k₂, hdis, rfl⟩ := hclosed.disowned
    have howner : (k₂.ringbufs r).owners c = (k.ringbufs r).owners c :=
      hdis.others r c p hne hhas.owns
    exact hhas.of_ring (hdis.name r c p ((congrArg Owner.proc howner).trans hhas.owns)) howner
  · have hring := hclosed.rest r hs
    exact hhas.of_ring (by rw [hring]) (by rw [hring])

/-- **Ring-buffer calls of other processes** take nothing away. -/
theorem Has.other {nm : List UInt8} {buf book : ℕ} {str : Option CStr} {op : Int32} {n : ℤ}
    (hhas : Has k p nm buf book r c) (h : Inv k) (hj : j ≠ p)
    (hcall : k.sysRingbuf j str op addr vaddr = .ok (k', n)) : Has k' p nm buf book r c := by
  obtain ⟨res, -, hcalled⟩ := of_sysRingbuf hcall
  cases hcalled with
  | failed => exact hhas
  | closed _ _ hclose => exact hhas.close h (.inl hj.symm) hclose
  | opened _ hlen hzero hopen => exact hhas.open h hlen hzero hopen

theorem eq_of_ptrFromInt {x y : ℕ} (h : ptrFromInt x = some y) : x = y := by
  unfold ptrFromInt at h
  split_ifs at h
  exact Option.some.inj h

/-- A ring buffer that was opened has the name, and its new owner the addresses
above the new top. -/
theorem open_named (h : Inv k) (hname : ¬ (name.length > maxNameLen ∨ name.length = 0))
    (hzero : 0 ∉ name) (hopen : k.openRingbuf p name addr = .ok (k', .ok ())) :
    ∃ r i top, (k'.ringbufs r).name = name ∧ (k'.ringbufs r).owners i = newOwner p top ∧
      (k'.procs p).topFreeUvmPg = sub64 top pgSize := by
  by_cases hearly : k.Early p name
  · obtain ⟨_, _, hr, -⟩ := open_early addr h hname hearly
    cases hr.symm.trans hopen
  obtain ⟨k₁, r, i, _, _, -, hnm, -, -, -, -, -, hr⟩ := open_late addr h hname hzero hearly
  obtain ⟨m, pt, top, rfl⟩ := of_attach_ok (hr.symm.trans hopen)
  refine ⟨r, i, top, ?_, ?_, ?_⟩
  · rw [opened_ring_self]
    exact hnm
  · rw [opened_ring_self]
    exact update_self _ _ _
  · rw [opened_procs_self]

/-! ### What the library's system calls come to -/

@[simp] theorem errFromInt_intFromErr (e : RingbufError) : errFromInt (intFromErr e) = some e := by
  cases e <;> decide

/-- The library reads what the kernel returns as it was meant. -/
theorem of_sysUserRingbuf {nm : ZStr} {op : Int32}
    (hcall : sysUserRingbuf k p nm op addr vaddr = .ok (k', res)) :
    k.sysRingbuf p nm.argstr op addr vaddr = .ok (k', retval res) := by
  unfold sysUserRingbuf at hcall
  rcases hsys : k.sysRingbuf p nm.argstr op addr vaddr with e | ⟨k₁, n⟩
  · rw [hsys] at hcall
    cases hcall
  obtain ⟨res₁, rfl, -⟩ := of_sysRingbuf hsys
  rw [hsys] at hcall
  rcases res₁ with e | u
  · have hneg : retval (.error e) < 0 := intFromErr_neg e
    simp only [if_pos hneg] at hcall
    rw [show errFromInt (retval (.error e)) = some e from errFromInt_intFromErr e] at hcall
    cases hcall
    rfl
  · simp only [show ¬ retval (.ok u) < 0 from lt_irrefl 0, if_false] at hcall
    cases hcall
    rfl

theorem retval_injective : Injective retval := by
  intro x y h
  rcases x with e | u
  · rcases y with e' | u'
    · have := congrArg errFromInt h
      rw [show errFromInt (retval (.error e)) = some e from errFromInt_intFromErr e,
        show errFromInt (retval (.error e')) = some e' from errFromInt_intFromErr e'] at this
      rw [Option.some.inj this]
    · exact absurd h (intFromErr_neg e).ne
  · rcases y with e' | u'
    · exact absurd h.symm (intFromErr_neg e').ne
    · rfl

theorem ZStr.argstr_eq {nm : ZStr} {name : CStr} (h : nm.argstr = some name) :
    nm.bytes = name.bytes := by
  unfold ZStr.argstr at h
  split_ifs at h
  rw [← Option.some.inj h]

/-- **An open of the library** fails and leaves the caller what it has, or is an open
of the kernel that makes the caller an owner at the addresses the user is told. -/
theorem userOpen_cases {nm : ZStr} {sp : ℕ} (h : Inv k) (hrun : k.Running p)
    (hcall : sysUserRingbuf k p nm 1 sp 0 = .ok (k', res)) :
    Inv k' ∧ (∀ {s c nm' buf book}, Has k p nm' buf book s c → Has k' p nm' buf book s c) ∧
      (res = .ok () → k.openRingbuf p nm.bytes sp = .ok (k', .ok ()) ∧
        (∀ s, k.findRingbufByName nm.bytes = some s → ¬ k.Owns p s) ∧
        ∃ r c, Has k' p nm.bytes (ringbufLoc k' p) (ringbufLoc k' p - pgSize) r c) := by
  obtain ⟨res₁, hres, hcalled⟩ := of_sysRingbuf (of_sysUserRingbuf hcall)
  obtain rfl := retval_injective hres
  rcases hcalled with - | hop | @⟨name, _, _, hname, hlen, hzero, hopen⟩
  · exact ⟨h, id, fun hno => nomatch hno⟩
  · exact absurd hop (by decide)
  obtain ⟨hstr, -, -⟩ := mem_opens.mp hname
  rw [ZStr.argstr_eq hstr]
  have hinv := inv_open h hlen hzero hrun hopen
  refine ⟨hinv, fun hhas => hhas.open h hlen hzero hopen, ?_⟩
  rintro rfl
  refine ⟨hopen, fun s hs hown => ?_, ?_⟩
  · rcases open_cases h hlen hzero hopen with ⟨-, -, -, -, -, hno⟩ | ⟨hlate, -⟩
    · exact hno rfl
    · apply hlate
      unfold Early
      rw [hs]
      exact .inl hown
  · obtain ⟨r, i, top, hnm, howner, htop⟩ := open_named h hlen hzero hopen
    have hproc : ((k'.ringbufs r).owners i).proc = some p := by
      rw [howner]
      rfl
    obtain ⟨-, b, hatt⟩ := hinv.owner r i p hproc
    refine ⟨r, i, hnm, ?_⟩
    have hbuf : add64 top (2 * pgSize) = (b + 1) * pgSize := by
      have hvbuf := hatt.vbuf
      rw [howner] at hvbuf
      simp only [newOwner] at hvbuf
      exact eq_of_ptrFromInt hvbuf
    have hloc : ringbufLoc k' p = (b + 1) * pgSize := by
      unfold ringbufLoc
      rw [htop, ← hbuf]
      simp only [add64, sub64, pgSize]
      omega
    have hloc' : ringbufLoc k' p - pgSize = b * pgSize := by
      rw [hloc, Nat.add_mul, Nat.one_mul, Nat.add_sub_cancel]
    rw [hloc', hloc, ← hatt.vbuf, ← hatt.vbook, ← hproc]

/-- **A close of the library** takes the ring buffer at the address only, whatever name
it is called with. -/
theorem userClose_cases {nm : ZStr} (h : Inv k)
    (hcall : sysUserRingbuf k p nm 0 addr vaddr = .ok (k', res)) :
    Inv k' ∧ ∀ {s c nm' buf book}, buf ≠ vaddr → Has k p nm' buf book s c →
      Has k' p nm' buf book s c := by
  obtain ⟨res₁, -, hcalled⟩ := of_sysRingbuf (of_sysUserRingbuf hcall)
  cases hcalled with
  | failed => exact ⟨h, fun _ => id⟩
  | closed _ hstr hclose =>
    obtain ⟨hinv, -, hdone⟩ := of_closeRingbuf h hclose
    refine ⟨hinv, fun {s c nm' buf book} hne hhas => ?_⟩
    obtain ⟨rfl, -⟩ | ⟨-, r, b, hfind, rfl, hclosed⟩ := hdone
    · exact hhas
    refine hhas.close h (.inr ?_) hclose
    rintro rfl
    obtain rfl := Option.some.inj ((hhas.find h).symm.trans hfind)
    obtain ⟨i, hi, hatt⟩ := hclosed.owned
    obtain rfl := (h.ring s).distinct i c p hi hhas.owns
    have hvbuf := hatt.vbuf
    rw [hhas.owner] at hvbuf
    exact hne (Option.some.inj hvbuf)
  | opened hname => exact absurd (mem_opens.mp hname).2.1 (by decide)

/-! ### The table agrees with the kernel -/

/-- **Every active slot is a ring buffer that the process owns**, the one of the name it
was opened with, at the addresses in the slot, and no two are the same one. -/
structure Agree (p : ProcIx) (s : Client) : Prop where
  inv : Inv s.kernel
  has : ∀ d, (s.table d).isActive = true → ∃ r c,
    Has s.kernel p (s.names d).bytes (s.table d).buf (s.table d).book r c
  distinct : ∀ d d', (s.table d).isActive = true → (s.table d').isActive = true →
    s.names d = s.names d' → d = d'

variable {s s' : Client} {sp : ℕ} {bufAt : UringbufDescriptor → ℕ} {text : Texts} {nm : ℕ}
  {ret : Except RingbufError UringbufDescriptor}

theorem ZStr.ext_bytes {a b : ZStr} (h : a.bytes = b.bytes) : a = b := by
  cases a
  cases b
  cases h
  rfl

theorem Agree.start (h : Client.Start p s) : Agree p s := by
  refine ⟨h.reachable.inv, fun d hd => ?_, fun d _ hd => ?_⟩
  · rw [h.inactive d] at hd
    cases hd
  · rw [h.inactive d] at hd
    cases hd

/-- What `init` can do: it gives up, it returns the slot where the scan ended, or it
has the kernel open the ring buffer, which fails or fills that slot. -/
inductive InitStep (p : ProcIx) (sp : ℕ) (text : Texts) (s : Client) (nm : ℕ) :
    Except RingbufError UringbufDescriptor → Client → Prop
  | full (scan_eq : scan text s.table nm = none) :
      InitStep p sp text s nm (.error .noFreeRingbuf) ⟨s.kernel, s.table, s.namesAfter (text nm)⟩
  | named {i : UringbufDescriptor} (scan_eq : scan text s.table nm = some i)
      (name_eq : text nm = text (s.table i).name) :
      InitStep p sp text s nm (.ok i) ⟨s.kernel, s.table, s.namesAfter (text nm)⟩
  | failed {i : UringbufDescriptor} {k' : Kernel} {e : RingbufError}
      (scan_eq : scan text s.table nm = some i) (name_ne : text nm ≠ text (s.table i).name)
      (inactive : (s.table i).isActive = false)
      (call : sysUserRingbuf s.kernel p (text nm) 1 sp 0 = .ok (k', .error e)) :
      InitStep p sp text s nm (.error e) ⟨k', s.table, s.namesAfter (text nm)⟩
  | opened {i : UringbufDescriptor} {k' : Kernel}
      (scan_eq : scan text s.table nm = some i) (name_ne : text nm ≠ text (s.table i).name)
      (inactive : (s.table i).isActive = false)
      (call : sysUserRingbuf s.kernel p (text nm) 1 sp 0 = .ok (k', .ok ())) :
      InitStep p sp text s nm (.ok i)
        ⟨k', update s.table i (.opened k' p nm), s.namesAfter (text nm)⟩

/-- Where the scan ends there is the name or an inactive slot. -/
theorem of_scan {t : Uringbufs} {i : UringbufDescriptor} (h : scan text t nm = some i) :
    text nm = text (t i).name ∨ (t i).isActive = false := by
  have := List.find?_some h
  simpa using this

theorem initStep (hnames : s'.names = s.namesAfter (text nm))
    (h : init text s.kernel s.table p sp nm = .ok (s'.kernel, s'.table, ret)) :
    InitStep p sp text s nm ret s' := by
  obtain ⟨k', t', names⟩ := s'
  obtain rfl := hnames
  unfold init at h
  rcases hscan : scan text s.table nm with - | i
  · simp only [hscan] at h
    cases h
    exact .full hscan
  simp only [hscan] at h
  by_cases hname : text nm = text (s.table i).name
  · rw [if_pos hname] at h
    cases h
    exact .named hscan hname
  rw [if_neg hname] at h
  have hinactive := (of_scan hscan).resolve_left hname
  unfold UserRingBuf.open at h
  rw [hinactive, if_neg (by decide)] at h
  obtain ⟨⟨k₁, u, res⟩, hopen, h⟩ := bind_eq_ok.mp h
  obtain ⟨⟨k₂, res₂⟩, hcall, hopen⟩ := bind_eq_ok.mp hopen
  rcases res₂ with e | u₂
  · cases hopen
    cases h
    rw [update_eq_self]
    exact .failed hscan hname hinactive hcall
  · obtain ⟨rfl, hu⟩ := Prod.mk.inj (Except.ok.inj hopen)
    obtain ⟨rfl, rfl⟩ := Prod.mk.inj hu
    cases h
    exact .opened hscan hname hinactive hcall

/-- The kernel does not open a ring buffer twice for a process. -/
theorem Agree.not_opened {k' : Kernel} {str : ZStr} (h : Agree p s) (hrun : s.kernel.Running p)
    (hcall : sysUserRingbuf s.kernel p str 1 sp 0 = .ok (k', .ok ())) (d : UringbufDescriptor)
    (hd : (s.table d).isActive = true) : s.names d ≠ str := by
  rintro rfl
  obtain ⟨-, -, hok⟩ := userOpen_cases h.inv hrun hcall
  obtain ⟨r, c, hhas⟩ := h.has d hd
  exact (hok rfl).2.1 r (hhas.find h.inv) ⟨c, hhas.owns⟩

theorem Client.namesAfter_active (str : ZStr) {d : UringbufDescriptor}
    (hd : (s.table d).isActive = true) : s.namesAfter str d = s.names d := if_pos hd

/-- The kernel has changed, but not for the active slots. -/
theorem Agree.of_kept {k' : Kernel} {names : UringbufDescriptor → ZStr} (h : Agree p s)
    (hinv : Inv k')
    (hnames : ∀ d, (s.table d).isActive = true → names d = s.names d)
    (hkeep : ∀ {r c nm' buf book}, Has s.kernel p nm' buf book r c → Has k' p nm' buf book r c) :
    Agree p ⟨k', s.table, names⟩ := by
  refine ⟨hinv, fun d hd => ?_, fun d d' hd hd' heq => ?_⟩
  · obtain ⟨r, c, hhas⟩ := h.has d hd
    rw [← hnames d hd] at hhas
    exact ⟨r, c, hkeep hhas⟩
  · dsimp only at heq
    rw [hnames d hd, hnames d' hd'] at heq
    exact h.distinct d d' hd hd' heq

theorem Agree.init (h : Agree p s) (hrun : s.kernel.Running p)
    (hstep : InitStep p sp text s nm ret s') : Agree p s' := by
  have hnames : ∀ d, (s.table d).isActive = true → s.namesAfter (text nm) d = s.names d :=
    fun d hd => Client.namesAfter_active (text nm) hd
  cases hstep with
  | full | named => exact h.of_kept h.inv hnames id
  | failed _ _ _ call =>
    obtain ⟨hinv, hkeep, -⟩ := userOpen_cases h.inv hrun call
    exact h.of_kept hinv hnames hkeep
  | @opened i k' _ _ hinactive call =>
    obtain ⟨hinv, hkeep, hok⟩ := userOpen_cases h.inv hrun call
    have hbefore := h.of_kept hinv hnames hkeep
    have hi : s.namesAfter (text nm) i = text nm := if_neg (by simp [hinactive])
    -- the slots that were active before have another name
    have hold : ∀ d, d ≠ i → (update s.table i (.opened k' p nm) d).isActive = true →
        (s.table d).isActive = true ∧ s.namesAfter (text nm) d ≠ text nm := by
      intro d hne hd
      rw [update_of_ne hne] at hd
      rw [hnames d hd]
      exact ⟨hd, h.not_opened hrun call d hd⟩
    refine ⟨hinv, fun d hd => ?_, fun d d' hd hd' heq => ?_⟩
    · dsimp only at hd ⊢
      by_cases hdi : d = i
      · subst hdi
        rw [update_self, hi]
        exact (hok rfl).2.2
      · rw [update_of_ne hdi]
        exact hbefore.has d (hold d hdi hd).1
    · dsimp only at hd hd' heq
      by_cases hdi : d = i <;> by_cases hdi' : d' = i
      · exact hdi.trans hdi'.symm
      · rw [hdi, hi] at heq
        exact absurd heq.symm (hold d' hdi' hd').2
      · rw [hdi', hi] at heq
        exact absurd heq (hold d hdi hd).2
      · exact hbefore.distinct d d' (hold d hdi hd).1 (hold d' hdi' hd').1 heq

theorem Agree.deinit {d : UringbufDescriptor} (h : Agree p s)
    (hnames : s'.names = s.names) (hd : (s.table d).isActive = true)
    (hcall : deinit text s.kernel s.table p bufAt d = .ok (s'.kernel, s'.table)) : Agree p s' := by
  obtain ⟨k', t', names⟩ := s'
  obtain rfl := hnames
  unfold Xv6Zig.deinit UserRingBuf.close at hcall
  rw [if_pos hd] at hcall
  obtain ⟨⟨k₁, u⟩, hclose, hret⟩ := bind_eq_ok.mp hcall
  obtain ⟨rfl, rfl⟩ := Prod.mk.inj (Except.ok.inj hret)
  obtain ⟨⟨k₂, res⟩, hsys, hclose'⟩ := bind_eq_ok.mp hclose
  rcases res with e | u₂
  · cases hclose'
  obtain ⟨rfl, hu⟩ := Prod.mk.inj (Except.ok.inj hclose')
  obtain ⟨hinv, hkeep⟩ := userClose_cases h.inv hsys
  -- the slots that are active are the others
  have hactive : ∀ e, (update s.table d u e).isActive = true →
      e ≠ d ∧ update s.table d u e = s.table e := by
    intro e he
    have hne : e ≠ d := by
      rintro rfl
      rw [update_self, ← hu] at he
      cases he
    exact ⟨hne, update_of_ne hne _ _⟩
  constructor
  · exact hinv
  · intro e he
    dsimp only at he ⊢
    obtain ⟨hne, hsame⟩ := hactive e he
    rw [hsame] at he ⊢
    obtain ⟨r, c, hhas⟩ := h.has e he
    refine ⟨r, c, hkeep (fun hbuf => hne ?_) hhas⟩
    -- at the address of the slot there is no other
    obtain ⟨r', c', hhas'⟩ := h.has d hd
    rw [hbuf] at hhas
    obtain rfl := hhas.unique h.inv hhas'
    exact h.distinct e d he hd (ZStr.ext_bytes (hhas.name.symm.trans hhas'.name))
  · intro e e' he he' hname
    dsimp only at he he' hname
    obtain ⟨-, hsame⟩ := hactive e he
    obtain ⟨-, hsame'⟩ := hactive e' he'
    exact h.distinct e e' (hsame ▸ he) (hsame' ▸ he') hname

/-- **The table agrees with the kernel after any calls.** -/
theorem Agree.step {e : ClientEv} (h : Agree p s) (hstep : ClientStep p sp bufAt s e s') :
    Agree p s' := by
  cases e with
  | init text nm ret => exact h.init hstep.1 (initStep hstep.2.1 hstep.2.2)
  | deinit text d => exact h.deinit hstep.2.1 hstep.2.2.1 hstep.2.2.2
  | other j str op addr vaddr =>
    obtain ⟨k', t', names⟩ := s'
    obtain ⟨hj, hrun, rfl, rfl, n, hcall⟩ := hstep
    exact h.of_kept (inv_sysRingbuf h.inv hrun hcall) (fun _ _ => rfl)
      fun hhas => hhas.other h.inv hj hcall

/-! ### What `init` returns -/

/-- **What `init` is for.**  A descriptor is returned for an active slot with the name,
which is a ring buffer the process owns at the addresses of the slot; if there is
such a slot it is the one; and if there is none the kernel has just mapped the
ring buffer. -/
structure InitOk (p : ProcIx) (sp : ℕ) (text : Texts) (s : Client) (nm : ℕ)
    (ret : Except RingbufError UringbufDescriptor) (s' : Client) : Prop where
  returned : ∀ d, ret = .ok d →
    (s'.table d).isActive = true ∧ text (s'.table d).name = text nm ∧
    ∃ r c, s'.kernel.findRingbufByName (text nm).bytes = some r ∧
      (s'.kernel.ringbufs r).owners c = ⟨some p, some (s'.table d).buf, some (s'.table d).book⟩
  found : ∀ d, (s.table d).isActive = true → text (s.table d).name = text nm → ret = .ok d
  afresh : (∀ d, (s.table d).isActive = true → text (s.table d).name ≠ text nm) →
    ∀ d, ret = .ok d → s.kernel.openRingbuf p (text nm).bytes sp = .ok (s'.kernel, .ok ())

/-- The slot where the scan ends is inactive and does not have the name, or it is active
and was opened with the name; and no other active slot has the name. -/
def InitPlain (text : Texts) (s : Client) (nm : ℕ) : Prop :=
  ∀ i, scan text s.table nm = some i →
    (if (s.table i).isActive then s.names i = text nm else text (s.table i).name ≠ text nm) ∧
    ∀ d, (s.table d).isActive = true → text (s.table d).name = text nm → d = i

/-- No slot has the name if the scan finds none. -/
theorem of_scan_none {t : Uringbufs} (h : scan text t nm = none) (d : UringbufDescriptor) :
    text (t d).name ≠ text nm := by
  have := List.find?_eq_none.mp h d (List.mem_finRange d)
  rw [decide_eq_true_eq, not_or] at this
  exact fun heq => this.1 heq.symm

/-- If the scan ends at an inactive slot without the name, no active slot may have it. -/
theorem initPlain_inactive {i : UringbufDescriptor} (hscan : scan text s.table nm = some i)
    (hne : text nm ≠ text (s.table i).name) (hinactive : (s.table i).isActive = false) :
    InitPlain text s nm ↔
      ∀ d, (s.table d).isActive = true → text (s.table d).name ≠ text nm := by
  constructor
  · intro hplain d hd hname
    rw [(hplain i hscan).2 d hd hname, hinactive] at hd
    cases hd
  · intro hnone j hj
    cases hscan.symm.trans hj
    rw [if_neg (by simp [hinactive])]
    exact ⟨hne.symm, fun d hd hname => absurd hname (hnone d hd)⟩

/-- A slot that the scan finds by the name is the right one exactly if it was opened with
it. -/
theorem Agree.named_iff {i : UringbufDescriptor} (h : Agree p s)
    (hi : (s.table i).isActive = true) :
    (∃ r c, s.kernel.findRingbufByName (text nm).bytes = some r ∧ (s.kernel.ringbufs r).owners c
      = ⟨some p, some (s.table i).buf, some (s.table i).book⟩) ↔ s.names i = text nm := by
  obtain ⟨r, c, hhas⟩ := h.has i hi
  constructor
  · rintro ⟨r', c', hfind, howner⟩
    have hname := (of_findRingbufByName hfind).2
    obtain rfl := hhas.unique h.inv ⟨hname, howner⟩
    exact ZStr.ext_bytes (hhas.name.symm.trans hname)
  · intro hname
    rw [hname] at hhas
    exact ⟨r, c, hhas.find h.inv, hhas.owner⟩

/-- **`init` does what it is for exactly when its scan ends at the right slot**, after any
calls. -/
theorem init_ok_iff {s₀ : Client} {tr : List ClientEv} (h₀ : Client.Start p s₀)
    (hrun : Run (ClientStep p sp bufAt) s₀ tr s)
    (hstep : ClientStep p sp bufAt s (.init text nm ret) s') :
    InitOk p sp text s nm ret s' ↔ InitPlain text s nm := by
  have hagree : Agree p s := hrun.invariant (Agree.start h₀) fun h hstep => h.step hstep
  obtain ⟨hrunning, hnames, hinit⟩ := hstep
  cases initStep hnames hinit with
  | full scan_eq =>
    refine ⟨fun _ i hi => ?_, fun _ => ⟨(fun d hno => nomatch hno), fun d _ hname => ?_,
      fun _ d hno => nomatch hno⟩⟩
    · rw [scan_eq] at hi
      cases hi
    · exact absurd hname (of_scan_none scan_eq d)
  | @named i scan_eq name_eq =>
    constructor
    · intro hok j hj
      obtain rfl : i = j := Option.some.inj (scan_eq.symm.trans hj)
      obtain ⟨hactive, -, howner⟩ := hok.returned i rfl
      rw [if_pos hactive]
      refine ⟨(hagree.named_iff hactive).mp howner, fun d hd hname => ?_⟩
      exact (Except.ok.inj (hok.found d hd hname)).symm
    · intro hplain
      obtain ⟨hslot, honly⟩ := hplain i scan_eq
      have hactive : (s.table i).isActive = true := by
        by_contra hno
        rw [if_neg hno] at hslot
        exact hslot name_eq.symm
      rw [if_pos hactive] at hslot
      refine ⟨fun d hd => ?_, fun d hd hname => ?_, fun hnone => absurd name_eq.symm (hnone i hactive)⟩
      · cases hd
        exact ⟨hactive, name_eq.symm, (hagree.named_iff hactive).mpr hslot⟩
      · rw [honly d hd hname]
  | @failed i k' e scan_eq name_ne inactive call =>
    rw [initPlain_inactive scan_eq name_ne inactive]
    constructor
    · exact fun hok d hd hname => nomatch hok.found d hd hname
    · intro hnone
      exact ⟨(fun d hno => nomatch hno), fun d hd hname => absurd hname (hnone d hd),
        fun _ d hno => nomatch hno⟩
  | @opened i k' scan_eq name_ne inactive call =>
    rw [initPlain_inactive scan_eq name_ne inactive]
    constructor
    · intro hok d hd hname
      cases hok.found d hd hname
      rw [inactive] at hd
      cases hd
    · intro hnone
      obtain ⟨hinv, -, hok⟩ := userOpen_cases hagree.inv hrunning call
      refine ⟨fun d hd => ?_, fun d hd hname => absurd hname (hnone d hd), fun _ _ _ => (hok rfl).1⟩
      cases hd
      dsimp only
      rw [update_self]
      obtain ⟨r, c, hhas⟩ := (hok rfl).2.2
      exact ⟨rfl, rfl, r, c, hhas.find hinv, hhas.owner⟩

/-! ### Runs on the machine with forty pages -/

/-- The step as a function. -/
def nextClient (s : Client) : ClientEv → Option Client
  | .init text nm ret =>
      if s.kernel.Running 0 then
        (init text s.kernel s.table 0 0 nm).toOption.bind fun x =>
          if x.2.2.toOption = ret.toOption ∧ errorOf x.2.2 = errorOf ret then
            some ⟨x.1, x.2.1, s.namesAfter (text nm)⟩
          else none
      else none
  | .deinit text d =>
      if s.kernel.Running 0 ∧ (s.table d).isActive = true then
        (deinit text s.kernel s.table 0 (fun _ => 0) d).toOption.map fun x => ⟨x.1, x.2, s.names⟩
      else none
  | .other .. => none

theorem clientStep_of_next {e : ClientEv} (h : nextClient s e = some s') :
    ClientStep 0 0 (fun _ => 0) s e s' := by
  cases e with
  | init text nm ret =>
    simp only [nextClient] at h
    split_ifs at h with hrun
    obtain ⟨⟨k, t, r⟩, hinit, h⟩ := Option.bind_eq_some_iff.mp h
    split_ifs at h with hret
    cases h
    have hr : r = ret := by
      rcases r with e | d
      · exact (eq_error_of_errorOf hret.2.symm).symm
      · rcases ret with e' | d'
        · cases hret.1
        · rw [Option.some.inj hret.1]
    exact ⟨hrun, rfl, hr ▸ toOption_eq_some hinit⟩
  | deinit text d =>
    simp only [nextClient] at h
    split_ifs at h with hrun
    obtain ⟨⟨k, t⟩, hdeinit, h⟩ := Option.map_eq_some_iff.mp h
    obtain rfl := h
    exact ⟨hrun.1, rfl, hrun.2, toOption_eq_some hdeinit⟩
  | other => cases h

/-- A client as the program starts; its undefined pointers are null. -/
def newClient (k : Kernel) : Client :=
  ⟨k, fun _ => ⟨0, 0, 0, false⟩, fun _ => ⟨[], List.not_mem_nil⟩⟩

theorem start_demo {k : Kernel} (h : demo = some k) : Client.Start 0 (newClient k) :=
  ⟨⟨k, [], demo_initial h, .nil k⟩, ((demo_initial h).fresh 0).2, fun _ => rfl⟩

/-- The string "a" at address 1, and nothing elsewhere. -/
def letterA : Texts := fun a =>
  if a = 1 then ⟨[97], Kernel.demoName.nonzero⟩ else ⟨[], List.not_mem_nil⟩

/-- A run of the library on that machine, of which something was decided. -/
theorem exists_clientRun {P : Client → Prop} [DecidablePred P] (tr : List ClientEv)
    (h : (demo.bind fun k => tr.foldlM nextClient (newClient k)).map (fun s => decide (P s))
      = some true) :
    ∃ s₀ s, Client.Start 0 s₀ ∧ Run (ClientStep 0 0 fun _ => 0) s₀ tr s ∧ P s := by
  obtain ⟨s, hs, hP⟩ := exists_of_decide h
  obtain ⟨k, hk, hfold⟩ := Option.bind_eq_some_iff.mp hs
  exact ⟨_, s, start_demo hk, Run.of_foldlM clientStep_of_next tr hfold, hP⟩

/-- The first ring buffer of a process. -/
theorem init_ok_iff_first : ∃ s₀ s', Client.Start 0 s₀ ∧
    ClientStep 0 0 (fun _ => 0) s₀ (.init letterA 1 (.ok 0)) s' ∧ (s'.table 0).isActive = true ∧
    (InitOk 0 0 letterA s₀ 1 (.ok 0) s' ↔ InitPlain letterA s₀ 1) := by
  obtain ⟨s₀, s', h₀, hrun, hactive⟩ := exists_clientRun
    (P := fun s => (s.table 0).isActive = true) [.init letterA 1 (.ok 0)] (by decide +kernel)
  have hlast : Run (ClientStep 0 0 fun _ => 0) s₀ ([] ++ [.init letterA 1 (.ok 0)]) s' := hrun
  obtain ⟨s, hnil, hstep⟩ := hlast.of_snoc
  obtain rfl := hnil.of_nil
  exact ⟨s₀, s', h₀, hstep, hactive, init_ok_iff h₀ (.nil s₀) hstep⟩

/-- **Opened, closed and opened again**, a ring buffer is not there: `init` returns the
slot in which only the name is left, and the process owns nothing. -/
theorem init_returns_closed : ∃ s₀ s s', Client.Start 0 s₀ ∧
    Run (ClientStep 0 0 fun _ => 0) s₀ [.init letterA 1 (.ok 0), .deinit letterA 0] s ∧
    ClientStep 0 0 (fun _ => 0) s (.init letterA 1 (.ok 0)) s' ∧
    (∀ r, ¬ s'.kernel.Owns 0 r) ∧ ¬ InitOk 0 0 letterA s 1 (.ok 0) s' := by
  obtain ⟨s₀, s', h₀, hrun, hinactive, hnot⟩ := exists_clientRun
    (P := fun s => (s.table 0).isActive = false ∧ ∀ r, ¬ s.kernel.Owns 0 r)
    [.init letterA 1 (.ok 0), .deinit letterA 0, .init letterA 1 (.ok 0)] (by decide +kernel)
  have hlast : Run (ClientStep 0 0 fun _ => 0) s₀
      ([.init letterA 1 (.ok 0), .deinit letterA 0] ++ [.init letterA 1 (.ok 0)]) s' := hrun
  obtain ⟨s, hrun, hstep⟩ := hlast.of_snoc
  refine ⟨s₀, s, s', h₀, hrun, hstep, hnot, fun hok => ?_⟩
  rw [(hok.returned 0 rfl).1] at hinactive
  cases hinactive

end Xv6Zig
