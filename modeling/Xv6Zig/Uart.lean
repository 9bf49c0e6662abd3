/-
Xv6Zig/Uart.lean

The output buffer of the serial line (`kernel/uart.c`).

`uartputc` stores a byte in a ring of 32 and sleeps while it is full;
`uartstart`, called after each byte and by the interrupt handler, hands bytes to
the device while that is ready, and wakes the sleepers.  `uart_fifo` says for
every interleaving that the device gets the bytes in the order they were stored,
and that a writer sleeps only while the ring is full.  The counters may wrap.
-/
import Xv6Zig.Lib.Circular
import Xv6Zig.Lib.Monitor

namespace Xv6Zig

open Lib Function

/-- The transmit buffer, the bytes `uartputc` has stored in it so far and those
`uartstart` has written to `THR`. -/
structure Uart where
  buf : ℕ → UInt8
  w : UInt64
  r : UInt64
  stored : List UInt8
  sent : List UInt8

namespace Uart

/-- A call with what it reads from `LSR`: is the device ready?  After these it is not. -/
inductive Call
  | uartputc (c : UInt8) (lsr : List Bool)
  | uartintr (lsr : List Bool)

def uartinit : Uart := ⟨fun _ => 0, 0, 0, [], []⟩

/-- `uartstart`, and whether it has called `wakeup`. -/
def uartstart : List Bool → Uart → Uart × Bool
  | true :: lsr, s =>
      if s.w = s.r then (s, false)
      else
        let c := s.buf (s.r.toNat % 32)
        ((uartstart lsr { s with r := s.r + 1, sent := s.sent ++ [c] }).1, true)
  | _, s => (s, false)

/-- `uartputc` once it has found room, before `uartstart`. -/
def put (s : Uart) (c : UInt8) : Uart :=
  { s with buf := update s.buf (s.w.toNat % 32) c, w := s.w + 1, stored := s.stored ++ [c] }

def body : Monitor.Body Uart Call ℕ
  | _, .uartputc c lsr, s =>
      if s.w = s.r + 32 then some .sleeps
      else some (.returns (uartstart lsr (s.put c)).1 (uartstart lsr (s.put c)).2)
  | _, .uartintr lsr, s => some (.returns (uartstart lsr s).1 (uartstart lsr s).2)

/-- The bytes `l` are in the buffer. -/
structure Buffers (s : Uart) (l : List UInt8) : Prop where
  stored : s.stored = s.sent ++ l
  le : l.length ≤ 32
  w_eq : s.w = .ofNat s.stored.length
  r_eq : s.r = .ofNat s.sent.length
  holds : Holds s.buf 32 (fun x => s.stored.getD x 0) s.sent.length s.stored.length

variable {s s' : Uart} {l : List UInt8}

/-- A counter that has wrapped names the same cell. -/
theorem toNat_ofNat_mod (n : ℕ) : (UInt64.ofNat n).toNat % 32 = n % 32 := by
  rw [UInt64.toNat_ofNat']
  exact Nat.mod_mod_of_dvd n (by decide)

theorem Buffers.put (h : s.Buffers l) (hroom : s.w ≠ s.r + 32) (c : UInt8) :
    (s.put c).Buffers (l ++ [c]) := by
  have hlen := congrArg List.length h.stored
  rw [List.length_append] at hlen
  have hlt : l.length < 32 := by
    refine lt_of_le_of_ne h.le fun hfull => hroom ?_
    rw [h.w_eq, h.r_eq, hlen, hfull, UInt64.ofNat_add]
    rfl
  refine ⟨by simp [Uart.put, h.stored], by rwa [List.length_append], ?_, h.r_eq, ?_⟩
  · simp [Uart.put, h.w_eq, UInt64.ofNat_add]
  · show Holds (update s.buf _ c) _ _ _ (s.stored ++ [c]).length
    rw [h.w_eq, toNat_ofNat_mod]
    refine (h.holds.store c le_rfl (by omega)).extend (fun x hx => ?_) fun x h₁ h₂ => ?_
    · exact List.getD_append _ _ _ _ hx
    · obtain rfl : x = s.stored.length := by
        rw [List.length_append, List.length_singleton] at h₂
        omega
      simp [Uart.put]

/-- `uartstart` takes bytes from the front. -/
theorem Buffers.uartstart (h : s.Buffers l) (lsr : List Bool) :
    ∃ l', (uartstart lsr s).1.Buffers l' := by
  induction lsr generalizing s l with
  | nil => exact ⟨l, h⟩
  | cons ready lsr ih =>
    cases ready with
    | false => exact ⟨l, h⟩
    | true =>
      unfold Uart.uartstart
      split_ifs with hne
      · exact ⟨l, h⟩
      rcases l with - | ⟨x, l⟩
      · exact absurd (by rw [h.w_eq, h.r_eq, h.stored, List.append_nil]) hne
      have hx : s.buf (s.r.toNat % 32) = x := by
        rw [h.r_eq, toNat_ofNat_mod, h.holds _ le_rfl (by simp [h.stored])]
        simp [h.stored]
      have hle := h.le
      rw [List.length_cons] at hle
      refine ih (l := l) ⟨by simp [hx, h.stored], by omega, h.w_eq, ?_, ?_⟩
      · simp [h.r_eq, UInt64.ofNat_add]
      · exact h.holds.drop (by simp)

theorem uartstart_of_not_wakes {lsr : List Bool} (h : (uartstart lsr s).2 = false) :
    (uartstart lsr s).1 = s := by
  unfold uartstart at h ⊢
  split
  · split_ifs at h ⊢ <;> simp_all
  · rfl

theorem of_body_sleeps {p : ℕ} {e : Call} (h : body p e s = some .sleeps) :
    s.w = s.r + 32 := by
  cases e with
  | uartputc c lsr =>
    by_contra hroom
    simp [body, hroom] at h
  | uartintr lsr => simp [body] at h

theorem rules : Monitor.Rules body fun s => ∃ l, s.Buffers l := by
  rintro p (⟨c, lsr⟩ | lsr) s s' w ⟨l, h⟩ hbody <;> simp only [body] at hbody
  · split_ifs at hbody with hroom <;> cases hbody
    refine ⟨(h.put hroom c).uartstart lsr, fun _ q e' hq => ?_⟩
    exact absurd (of_body_sleeps hq) hroom
  · cases hbody
    refine ⟨h.uartstart lsr, fun hw q e' hq => ?_⟩
    rwa [uartstart_of_not_wakes hw]

end Uart

/-- **The device gets the bytes in order**, and a writer sleeps only while 32 of
them are in the buffer. -/
theorem uart_fifo {tr : List (Monitor.Act Uart.Call ℕ)} {m : Monitor Uart Uart.Call ℕ}
    (hrun : Run (Monitor.Step Uart.body) (.start .uartinit) tr m) :
    ∃ l : List UInt8, m.shared.stored = m.shared.sent ++ l ∧ l.length ≤ 32 ∧
      ∀ p e, m.place p = .asleep e → l.length = 32 := by
  have hinit : Uart.uartinit.Buffers [] := ⟨rfl, Nat.zero_le _, rfl, rfl, .empty _ _ _ _⟩
  obtain ⟨⟨l, h⟩, hasleep⟩ := Monitor.sound_of_run Uart.rules ⟨[], hinit⟩ hrun
  refine ⟨l, h.stored, h.le, fun p e hp => ?_⟩
  have hfull := congrArg UInt64.toNat (Uart.of_body_sleeps (hasleep hp))
  have hle := h.le
  rw [h.w_eq, h.r_eq, h.stored, List.length_append, UInt64.toNat_add, UInt64.toNat_ofNat',
    UInt64.toNat_ofNat', show (32 : UInt64).toNat = 32 from rfl] at hfull
  omega

/-- While the device is busy the 33rd byte waits. -/
theorem uart_fifo_full : ∃ m : Monitor Uart Uart.Call ℕ, m.place 2 = .asleep (.uartputc 66 []) ∧
    ∃ l : List UInt8, m.shared.stored = m.shared.sent ++ l ∧ l.length = 32 := by
  obtain ⟨m, hrun, hm⟩ := Monitor.exists_run Uart.body .uartinit 2
    (List.replicate 32 (.call 1 (.uartputc 65 [])) ++ [.call 2 (.uartputc 66 [])]) rfl
  obtain ⟨l, hl, -, hasleep⟩ := uart_fifo hrun
  exact ⟨m, hm, l, hl, hasleep 2 _ hm⟩

end Xv6Zig
