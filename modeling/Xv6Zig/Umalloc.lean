/-
Xv6Zig/Umalloc.lean

`free` of the user library (`user/ulib/umalloc.c`).

A block is 16 bytes for each unit of its size, and its header is at its start: the next
block of the circular list and the size.  The list is sorted but for one place.  `free`
goes around it to the place where the block belongs, and joins it with the block above and
with the block below where they touch.

When the list is a single block and the freed one ends where it begins, `p` is the block
that has just been joined, and `p->s.ptr = bp` puts it back into the list.  The allocator
does not come there because `base`, below every block, stays in its list.
-/
import Mathlib.Data.List.Chain
import Mathlib.Data.List.Pairwise
import Mathlib.Data.UInt
import Xv6Zig.Lib.Cycle

namespace Xv6Zig

namespace Umalloc

open Lib Function

/-- The headers in memory, by their address: `s.ptr` and `s.size`. -/
structure Mem where
  ptr : ℕ → ℕ
  size : ℕ → UInt32

/-- `sizeof(Header)` -/
def headerSize : ℕ := 16

namespace Mem

def setPtr (m : Mem) (a v : ℕ) : Mem := { m with ptr := update m.ptr a v }

def setSize (m : Mem) (a : ℕ) (v : UInt32) : Mem := { m with size := update m.size a v }

/-- `a->s.size += b->s.size; a->s.ptr = b->s.ptr` -/
def absorb (m : Mem) (a b : ℕ) : Mem := (m.setSize a (m.size a + m.size b)).setPtr a (m.ptr b)

/-- `a + a->s.size`: where a block ends. -/
def stop (m : Mem) (a : ℕ) : ℕ := a + headerSize * (m.size a).toNat

end Mem

/-- Where the loop of `free` stops, at a node `p` with the next one `q`. -/
def Stops (bp p q : ℕ) : Prop := p < bp ∧ bp < q ∨ q ≤ p ∧ (p < bp ∨ bp < q)

instance (bp p q : ℕ) : Decidable (Stops bp p q) := by
  unfold Stops
  infer_instance

/-- The loop of `free`, of at most the given number of rounds. -/
def findLoop (m : Mem) (bp : ℕ) : ℕ → ℕ → Option ℕ
  | 0, _ => none
  | fuel + 1, p => if Stops bp p (m.ptr p) then some p else findLoop m bp fuel (m.ptr p)

/-- `free` joins `bp` with the block above, or sets its `s.ptr`. -/
def joinUpper (m : Mem) (bp p : ℕ) : Mem :=
  if m.stop bp = m.ptr p then m.absorb bp (m.ptr p) else m.setPtr bp (m.ptr p)

/-- `free` joins the block below with `bp`, or sets its `s.ptr`. -/
def joinLower (m : Mem) (bp p : ℕ) : Mem :=
  if m.stop p = bp then m.absorb p bp else m.setPtr p bp

/-- `free(ap)`: the memory and `freep`. -/
def free (fuel : ℕ) (m : Mem) (freep ap : ℕ) : Option (Mem × ℕ) :=
  let bp := ap - headerSize
  (findLoop m bp fuel freep).map fun p => (joinLower (joinUpper m bp p) bp p, p)

/-! ### Free lists -/

namespace Mem

/-- The block at `a` is below `b` and does not touch it. -/
def Apart (m : Mem) (a b : ℕ) : Prop := a + headerSize ≤ b ∧ m.stop a < b

/-- The bytes of the blocks. -/
def Covers (m : Mem) (as : List ℕ) (x : ℕ) : Prop := ∃ a ∈ as, a ≤ x ∧ x < m.stop a

/-- The units of the blocks. -/
def total (m : Mem) (as : List ℕ) : ℕ := (as.map fun a => (m.size a).toNat).sum

end Mem

/-- **A free list**: the blocks `as`, from the lowest to the highest, none touching another,
and each linked to the next, the last to the first. -/
structure FreeList (m : Mem) (as : List ℕ) : Prop where
  ne_nil : as ≠ []
  apart : as.Pairwise m.Apart
  linked : Linked m.ptr as

/-- A block that is disjoint from those of the list. -/
structure Fits (m : Mem) (as : List ℕ) (bp : ℕ) : Prop where
  pos : 0 < (m.size bp).toNat
  disjoint : ∀ a ∈ as, (a + headerSize ≤ bp ∧ m.stop a ≤ bp) ∨ m.stop bp ≤ a

variable {m m' : Mem} {as lo hi init t : List ℕ} {a b bp p q x freep fuel : ℕ}

theorem Mem.Apart.lt (h : m.Apart a b) : a < b := (Nat.lt_add_of_pos_right (by decide)).trans_le h.1

theorem Fits.add_le_stop (h : Fits m as bp) : bp + headerSize ≤ m.stop bp :=
  Nat.add_le_add_left (Nat.le_mul_of_pos_right _ h.pos) bp

/-! ### The place -/

theorem FreeList.split (hap : as.Pairwise m.Apart) (hfits : Fits m as bp) :
    ∃ lo hi, as = lo ++ hi ∧ (∀ a ∈ lo, a + headerSize ≤ bp ∧ m.stop a ≤ bp) ∧
      ∀ b ∈ hi, m.stop bp ≤ b := by
  induction as with
  | nil => exact ⟨[], [], rfl, nofun, nofun⟩
  | cons a as ih =>
    rcases hfits.disjoint a List.mem_cons_self with hlow | hhigh
    · obtain ⟨lo, hi, rfl, hlo, hhi⟩ := ih hap.of_cons
        ⟨hfits.pos, fun b hb => hfits.disjoint b (List.mem_cons_of_mem a hb)⟩
      refine ⟨a :: lo, hi, rfl, ?_, hhi⟩
      rintro b (_ | ⟨_, hb⟩)
      · exact hlow
      · exact hlo b hb
    · refine ⟨[], a :: as, rfl, nofun, ?_⟩
      rintro b (_ | ⟨_, hb⟩)
      · exact hhigh
      · exact hhigh.trans (List.rel_of_pairwise_cons hap hb).lt.le

/-- Seen from behind `bp` the loop stops at the last node only. -/
theorem isChain_not_stops (hap : (lo ++ hi).Pairwise m.Apart) (hlo : ∀ a ∈ lo, a < bp)
    (hhi : ∀ b ∈ hi, bp < b) : (hi ++ lo).IsChain fun x y => ¬ Stops bp x y := by
  rw [List.pairwise_append] at hap
  obtain ⟨haplo, haphi, -⟩ := hap
  rw [List.isChain_append]
  refine ⟨?_, ?_, ?_⟩
  · apply ((List.Pairwise.and_mem.mp haphi).imp _).isChain
    rintro a b ⟨ha, hb, hab⟩
    have := hhi a ha
    have := hab.lt
    unfold Stops
    omega
  · apply ((List.Pairwise.and_mem.mp haplo).imp _).isChain
    rintro a b ⟨ha, hb, hab⟩
    have := hlo b hb
    have := hab.lt
    unfold Stops
    omega
  · intro a ha b hb
    have := hhi a (List.mem_of_getLast? ha)
    have := hlo b (List.mem_of_head? hb)
    unfold Stops
    omega

/-- The loop goes from any node to the one where it stops. -/
theorem findLoop_walk (hchain : (init ++ [p]).IsChain fun x y => ¬ Stops bp x y)
    (hnext : init.map m.ptr = (init ++ [p]).tail) (hp : Stops bp p (m.ptr p))
    (hx : x ∈ init ++ [p]) (hfuel : init.length < fuel) : findLoop m bp fuel x = some p := by
  induction init generalizing x fuel with
  | nil =>
    obtain ⟨fuel, rfl⟩ := Nat.exists_eq_add_of_lt hfuel
    obtain rfl : x = p := by simpa using hx
    unfold findLoop
    exact if_pos hp
  | cons a init ih =>
    obtain ⟨b, rest, hrest⟩ := List.exists_cons_of_ne_nil (List.concat_ne_nil p init)
    have hlen : init.length < fuel := Nat.lt_of_succ_lt hfuel
    rw [List.cons_append, hrest, List.isChain_cons_cons] at hchain
    rw [List.cons_append, List.tail_cons, hrest, List.map_cons] at hnext
    obtain ⟨hab, htail⟩ := List.cons.inj hnext
    rw [← hrest] at hchain
    rw [show rest = (init ++ [p]).tail by rw [hrest]; rfl] at htail
    rcases List.mem_cons.mp hx with rfl | hx
    · obtain ⟨fuel, rfl⟩ := Nat.exists_eq_add_of_lt hfuel
      unfold findLoop
      rw [if_neg (by rw [hab]; exact hchain.1), hab]
      exact ih hchain.2 htail (by rw [hrest]; exact List.mem_cons_self) (by simp; omega)
    · exact ih hchain.2 htail hx hlen

/-! ### The joins -/

/-- `bp` is out of the list between `lo` and `hi`, with its own link set; the chain is open
there. -/
structure Gap (m : Mem) (lo hi : List ℕ) (bp p : ℕ) : Prop where
  apart : (lo ++ hi).Pairwise m.Apart
  below : ∀ a ∈ lo, a + headerSize ≤ bp ∧ m.stop a ≤ bp
  above : ∀ b ∈ hi, m.Apart bp b
  chain : ∃ init q t, hi ++ lo = init ++ [p] ∧ hi ++ lo = q :: t ∧ init.map m.ptr = t ∧
    m.ptr bp = q

theorem Gap.notMem (h : Gap m lo hi bp p) : bp ∉ lo ++ hi := by
  intro hmem
  rcases List.mem_append.mp hmem with hmem | hmem
  · have := (h.below bp hmem).1
    unfold headerSize at this
    omega
  · exact lt_irrefl _ (h.above bp hmem).lt

theorem nodup_of_apart (h : as.Pairwise m.Apart) : as.Nodup := h.imp fun hab => hab.lt.ne

/-- The last node seen from behind `bp` is the one below it, if there is one. -/
theorem getLast_lo (h : hi ++ lo = init ++ [p]) (hlo : lo ≠ []) : ∃ lo', lo = lo' ++ [p] := by
  obtain ⟨lo', x, rfl⟩ := (List.eq_nil_or_concat' lo).resolve_left hlo
  rw [← List.append_assoc] at h
  exact ⟨lo', by rw [List.singleton_inj.mp (List.append_inj' h rfl).2]⟩

/-- The last node is below `bp`, or nothing is. -/
theorem Gap.lo_ne_nil (h : Gap m lo hi bp p) (hp : m.stop p = bp) : lo ≠ [] := by
  rintro rfl
  obtain ⟨init, -, -, hinit, -⟩ := h.chain
  have hmem : p ∈ hi := by
    rw [List.append_nil] at hinit
    rw [hinit]
    simp
  have := (h.above p hmem).lt
  have : p ≤ m.stop p := Nat.le_add_right ..
  omega

section Congr

variable (h : ∀ a ∈ as, m'.size a = m.size a)
include h

theorem stop_congr (ha : a ∈ as) : m'.stop a = m.stop a := by
  unfold Mem.stop
  rw [h a ha]

theorem pairwise_apart_congr (hap : as.Pairwise m.Apart) : as.Pairwise m'.Apart := by
  refine (List.Pairwise.and_mem.mp hap).imp ?_
  rintro a b ⟨ha, -, hab⟩
  exact ⟨hab.1, (stop_congr h ha).trans_lt hab.2⟩

theorem covers_congr : m'.Covers as x ↔ m.Covers as x :=
  exists_congr fun a => and_congr_right fun ha => by rw [stop_congr h ha]

theorem total_congr : m'.total as = m.total as :=
  congrArg List.sum (List.map_congr_left fun a ha => by rw [h a ha])

end Congr

theorem covers_append (l l' : List ℕ) :
    m.Covers (l ++ l') x ↔ m.Covers l x ∨ m.Covers l' x := by
  unfold Mem.Covers
  simp only [List.mem_append, or_and_right, exists_or]

theorem covers_cons (l : List ℕ) :
    m.Covers (a :: l) x ↔ (a ≤ x ∧ x < m.stop a) ∨ m.Covers l x := by
  unfold Mem.Covers
  simp

theorem total_append (l l' : List ℕ) : m.total (l ++ l') = m.total l + m.total l' := by
  unfold Mem.total
  rw [List.map_append, List.sum_append]

theorem total_cons (l : List ℕ) : m.total (a :: l) = (m.size a).toNat + m.total l := rfl

section Absorb

theorem absorb_size_of_ne (h : x ≠ a) : (m.absorb a b).size x = m.size x :=
  update_of_ne h ..

theorem absorb_ptr_of_ne (h : x ≠ a) : (m.absorb a b).ptr x = m.ptr x :=
  update_of_ne h ..

theorem absorb_ptr_self : (m.absorb a b).ptr a = m.ptr b := update_self ..

variable (hroom : (m.size a).toNat + (m.size b).toNat < 2 ^ 32)
include hroom

theorem absorb_size_self :
    ((m.absorb a b).size a).toNat = (m.size a).toNat + (m.size b).toNat := by
  have hsize : (m.absorb a b).size a = m.size a + m.size b := update_self ..
  rw [hsize, UInt32.toNat_add, Nat.mod_eq_of_lt hroom]

/-- A block that takes in the one behind it ends where that one ended. -/
theorem absorb_stop (heq : m.stop a = b) : (m.absorb a b).stop a = m.stop b := by
  unfold Mem.stop at heq ⊢
  rw [absorb_size_self hroom, Nat.mul_add, ← Nat.add_assoc, heq]

theorem absorb_covers (heq : m.stop a = b) :
    a ≤ x ∧ x < (m.absorb a b).stop a ↔ (a ≤ x ∧ x < m.stop a) ∨ b ≤ x ∧ x < m.stop b := by
  have ha : a ≤ m.stop a := Nat.le_add_right ..
  have hb : b ≤ m.stop b := Nat.le_add_right ..
  rw [absorb_stop hroom heq]
  omega

end Absorb

/-- What `free` knows when it has found the place. -/
structure Found (m : Mem) (lo hi : List ℕ) (bp p : ℕ) : Prop where
  apart : (lo ++ hi).Pairwise m.Apart
  below : ∀ a ∈ lo, a + headerSize ≤ bp ∧ m.stop a ≤ bp
  above : ∀ b ∈ hi, m.stop bp ≤ b
  pos : bp + headerSize ≤ m.stop bp
  chain : ∃ init t, hi ++ lo = init ++ [p] ∧ hi ++ lo = m.ptr p :: t ∧ init.map m.ptr = t

theorem Found.notMem (h : Found m lo hi bp p) : bp ∉ lo ++ hi := by
  have hpos := h.pos
  unfold headerSize at hpos
  intro hmem
  rcases List.mem_append.mp hmem with hmem | hmem
  · have := (h.below bp hmem).1
    unfold headerSize at this
    omega
  · have := h.above bp hmem
    omega

/-- The block above is not touched. -/
theorem Found.gap (h : Found m lo hi bp p) (hne : m.stop bp ≠ m.ptr p) :
    Gap (m.setPtr bp (m.ptr p)) lo hi bp p where
  apart := h.apart
  below := h.below
  above := by
    intro b hb
    have hle := h.above b hb
    show bp + headerSize ≤ b ∧ m.stop bp < b
    refine ⟨h.pos.trans hle, lt_of_le_of_ne hle ?_⟩
    rintro rfl
    -- the first block above is the next of `p`
    obtain ⟨init, t, -, hq, -⟩ := h.chain
    obtain ⟨c, hi, rfl⟩ := List.exists_cons_of_ne_nil (List.ne_nil_of_mem hb)
    obtain rfl : c = m.ptr p := (List.cons.inj hq).1
    rcases List.mem_cons.mp hb with hb | hb
    · exact hne hb
    · have hap := (List.pairwise_append.mp h.apart).2.1
      have := (List.rel_of_pairwise_cons hap hb).lt
      have := h.above (m.ptr p) List.mem_cons_self
      omega
  chain := by
    obtain ⟨init, t, hinit, hq, hnext⟩ := h.chain
    refine ⟨init, m.ptr p, t, hinit, hq, ?_, update_self ..⟩
    rw [← hnext]
    refine List.map_congr_left fun a ha => update_of_ne ?_ ..
    rintro rfl
    apply h.notMem
    rw [List.mem_append, or_comm, ← List.mem_append, hinit]
    exact List.mem_append_left _ ha

/-- The block above is touched: it is the first of `hi`, and not the only block. -/
theorem Found.upper (h : Found m lo hi bp p) (heq : m.stop bp = m.ptr p)
    (hone : lo ++ hi ≠ [m.stop bp]) :
    ∃ hi' init, hi = m.ptr p :: hi' ∧ hi' ++ lo = init ++ [p] ∧
      m.ptr (m.ptr p) :: init.map m.ptr = hi' ++ lo := by
  obtain ⟨init, t, hinit, hq, hnext⟩ := h.chain
  have hpos := h.pos
  unfold headerSize at hpos
  cases hi with
  | nil =>
    have := (h.below (m.ptr p) (by rw [← List.nil_append lo, hq]; exact List.mem_cons_self)).1
    omega
  | cons c hi' =>
    obtain ⟨rfl, rfl⟩ := List.cons.inj hq
    cases init with
    | nil =>
      have hnil : hi' ++ lo = [] := (List.cons.inj hinit).2
      obtain ⟨rfl, rfl⟩ := List.append_eq_nil_iff.mp hnil
      exact absurd (by rw [heq]; rfl) hone
    | cons c init =>
      obtain ⟨rfl, htail⟩ := List.cons.inj hinit
      exact ⟨hi', init, rfl, htail, hnext⟩

/-- **The block is joined with the one above**, or linked to it: the gap is left, and what it
covers with the list is what was covered before. -/
theorem Found.joinUpper (h : Found m lo hi bp p) (hone : lo ++ hi ≠ [m.stop bp])
    (hroom : m.total (bp :: (lo ++ hi)) < 2 ^ 32) :
    ∃ hi', Gap (joinUpper m bp p) lo hi' bp p ∧
      (∀ x, (Umalloc.joinUpper m bp p).Covers (bp :: (lo ++ hi')) x ↔
        m.Covers (bp :: (lo ++ hi)) x) ∧
      (Umalloc.joinUpper m bp p).total (bp :: (lo ++ hi')) = m.total (bp :: (lo ++ hi)) := by
  unfold Umalloc.joinUpper
  by_cases heq : m.stop bp = m.ptr p
  · rw [if_pos heq]
    obtain ⟨hi', init, rfl, hinit, hnext⟩ := h.upper heq hone
    have hne : ∀ a ∈ lo ++ hi', a ≠ bp := by
      rintro a ha rfl
      apply h.notMem
      simp only [List.mem_append, List.mem_cons] at ha ⊢
      tauto
    have hsizes : ∀ a ∈ lo ++ hi', (m.absorb bp (m.ptr p)).size a = m.size a := fun a ha =>
      absorb_size_of_ne (hne a ha)
    have hsum : (m.size bp).toNat + (m.size (m.ptr p)).toNat < 2 ^ 32 := by
      rw [total_cons, total_append, total_cons] at hroom
      omega
    have hq : ∀ b ∈ hi', m.Apart (m.ptr p) b := fun b hb =>
      List.rel_of_pairwise_cons (List.pairwise_append.mp h.apart).2.1 hb
    refine ⟨hi', ⟨?_, ?_, ?_, ?_⟩, ?_, ?_⟩
    · exact pairwise_apart_congr hsizes (h.apart.sublist (by simp))
    · intro a ha
      rw [stop_congr hsizes (List.mem_append_left _ ha)]
      exact h.below a ha
    · intro b hb
      have hlt := (hq b hb).lt
      have hpos := h.pos
      exact ⟨by omega, (absorb_stop hsum heq).trans_lt (hq b hb).2⟩
    · refine ⟨init, m.ptr (m.ptr p), init.map m.ptr, hinit, hnext.symm, ?_, absorb_ptr_self⟩
      refine List.map_congr_left fun a ha => absorb_ptr_of_ne (hne a ?_)
      rw [List.mem_append, or_comm, ← List.mem_append, hinit]
      exact List.mem_append_left _ ha
    · intro x
      rw [covers_cons, covers_cons, absorb_covers hsum heq, covers_congr hsizes, covers_append,
        covers_append, covers_cons]
      tauto
    · rw [total_cons, total_cons, absorb_size_self hsum, total_congr hsizes, total_append,
        total_append, total_cons]
      omega
  · rw [if_neg heq]
    exact ⟨hi, h.gap heq, fun x => Iff.rfl, rfl⟩

/-- **The block below is joined with it**, or linked to it: a free list. -/
theorem Gap.joinLower (h : Gap m lo hi bp p) (hroom : m.total (bp :: (lo ++ hi)) < 2 ^ 32) :
    ∃ as, FreeList (joinLower m bp p) as ∧ p ∈ as ∧
      (∀ x, (Umalloc.joinLower m bp p).Covers as x ↔ m.Covers (bp :: (lo ++ hi)) x) ∧
      (Umalloc.joinLower m bp p).total as = m.total (bp :: (lo ++ hi)) := by
  have hnot := h.notMem
  obtain ⟨init, q, t, hinit, hq, hnext, hbp⟩ := h.chain
  have hp : p ∈ lo ++ hi := by
    rw [List.mem_append, or_comm, ← List.mem_append, hinit]
    simp
  have hpinit : ∀ a ∈ init, a ≠ p := by
    have hnd : (init ++ [p]).Nodup := hinit ▸ List.nodup_append_comm.mp (nodup_of_apart h.apart)
    exact fun a ha => (List.nodup_append.mp hnd).2.2 a ha p (by simp)
  have hbpp : bp ≠ p := fun h0 => hnot (h0 ▸ hp)
  unfold Umalloc.joinLower
  by_cases heq : m.stop p = bp
  · rw [if_pos heq]
    obtain ⟨lo', rfl⟩ := getLast_lo hinit (h.lo_ne_nil heq)
    have hap := h.apart
    rw [List.append_assoc, List.singleton_append] at hap hroom ⊢
    have hsum : (m.size p).toNat + (m.size bp).toNat < 2 ^ 32 := by
      rw [total_cons, total_append, total_cons] at hroom
      omega
    have hnd := nodup_of_apart hap
    have hlo : ∀ a ∈ lo', (m.absorb p bp).size a = m.size a := fun a ha =>
      absorb_size_of_ne fun h0 => (List.nodup_append.mp hnd).2.2 a ha p (by simp) h0
    have hhi : ∀ a ∈ hi, (m.absorb p bp).size a = m.size a := fun a ha =>
      absorb_size_of_ne fun h0 =>
        (List.nodup_cons.mp (List.nodup_append.mp hnd).2.1).1 (h0 ▸ ha)
    refine ⟨lo' ++ p :: hi, ⟨by simp, ?_, ?_⟩, by simp, ?_, ?_⟩
    · rw [List.pairwise_append, List.pairwise_cons] at hap ⊢
      refine ⟨pairwise_apart_congr hlo hap.1, ⟨?_, pairwise_apart_congr hhi hap.2.1.2⟩, ?_⟩
      · intro b hb
        exact ⟨(hap.2.1.1 b hb).1, (absorb_stop hsum heq).trans_lt (h.above b hb).2⟩
      · intro a ha b hb
        exact ⟨(hap.2.2 a ha b hb).1, (stop_congr hlo ha).trans_lt (hap.2.2 a ha b hb).2⟩
    · have hlinked : Linked (m.absorb p bp).ptr (q :: t) := by
        rw [linked_iff (hinit.symm.trans hq), absorb_ptr_self]
        exact ⟨(List.map_congr_left fun a ha => absorb_ptr_of_ne (hpinit a ha)).trans hnext, hbp⟩
      rw [← List.singleton_append, ← List.append_assoc]
      apply linked_append_comm
      rw [hq]
      exact hlinked
    · intro x
      rw [covers_cons, covers_append, covers_append, covers_cons, covers_cons,
        absorb_covers hsum heq, covers_congr hlo, covers_congr hhi]
      tauto
    · rw [total_cons, total_append, total_append, total_cons, total_cons, absorb_size_self hsum,
        total_congr hlo, total_congr hhi]
      omega
  · rw [if_neg heq]
    refine ⟨lo ++ bp :: hi, ⟨by simp, ?_, ?_⟩, ?_, ?_, ?_⟩
    · obtain ⟨haplo, haphi, hlohi⟩ := List.pairwise_append.mp h.apart
      refine List.pairwise_append.mpr ⟨haplo, List.pairwise_cons.mpr ⟨h.above, haphi⟩, ?_⟩
      intro a ha b hb
      rcases List.mem_cons.mp hb with rfl | hb
      · refine ⟨(h.below a ha).1, lt_of_le_of_ne (h.below a ha).2 fun htouch => ?_⟩
        -- only the last block below can touch it, and that is `p`
        obtain ⟨lo', rfl⟩ := getLast_lo hinit (List.ne_nil_of_mem ha)
        rcases List.mem_append.mp ha with ha | ha
        · have hlt := (List.pairwise_append.mp haplo).2.2 a ha p (by simp)
          have := (h.below p (by simp)).1
          have := hlt.2
          have : a < m.stop a ∨ a = m.stop a := (Nat.le_add_right ..).lt_or_eq
          change m.stop a = b at htouch
          omega
        · exact heq (List.mem_singleton.mp ha ▸ htouch)
      · exact hlohi a ha b hb
    · have hsplit : (bp :: init) ++ [p] = bp :: (q :: t) := by
        rw [List.cons_append, ← hinit, hq]
      have hlinked : Linked (m.setPtr p bp).ptr (bp :: (q :: t)) := by
        rw [linked_iff hsplit, List.map_cons]
        refine ⟨?_, update_self ..⟩
        rw [← hnext, ← hbp]
        congr 1
        · exact update_of_ne hbpp ..
        · exact List.map_congr_left fun a ha => update_of_ne (hpinit a ha) ..
      apply linked_append_comm
      rw [List.cons_append, hq]
      exact hlinked
    · simp only [List.mem_append, List.mem_cons] at hp ⊢
      tauto
    · intro x
      show m.Covers _ x ↔ _
      rw [covers_append, covers_cons, covers_cons, covers_append]
      tauto
    · show m.total _ = _
      rw [total_append, total_cons, total_cons, total_append]
      omega

/-- The first block is not above the last. -/
theorem head_le_last (hap : (q :: t).Pairwise m.Apart) (h : q :: t = init ++ [p]) : q ≤ p := by
  have hmem : p ∈ q :: t := h ▸ by simp
  rcases List.mem_cons.mp hmem with rfl | hmem
  · exact le_rfl
  · exact (List.rel_of_pairwise_cons hap hmem).lt.le

/-- The loop stops at the last node seen from behind `bp`. -/
theorem stops_last (hap : (lo ++ hi).Pairwise m.Apart) (hlo : ∀ a ∈ lo, a < bp)
    (hhi : ∀ b ∈ hi, bp < b) (hinit : hi ++ lo = init ++ [p]) (hq : hi ++ lo = q :: t) :
    Stops bp p q := by
  cases hi with
  | nil =>
    rw [List.nil_append] at hinit hq
    rw [List.append_nil] at hap
    have hp := hlo p (hinit ▸ by simp)
    exact .inr ⟨head_le_last (hq ▸ hap) (hq ▸ hinit), .inl hp⟩
  | cons b hi =>
    have hb := hhi q (by rw [(List.cons.inj hq).1]; exact List.mem_cons_self)
    cases lo with
    | nil =>
      rw [List.append_nil] at hinit hq
      rw [List.nil_append] at hap
      exact .inr ⟨head_le_last (hq ▸ hap) (hq ▸ hinit), .inr hb⟩
    | cons a lo =>
      obtain ⟨lo', hlo'⟩ := getLast_lo hinit (List.cons_ne_nil a lo)
      exact .inl ⟨hlo p (by rw [hlo']; simp), hb⟩

/-- **The loop finds the place of the block**, from any node. -/
theorem FreeList.find (h : FreeList m as) (hf : freep ∈ as) (hfits : Fits m as bp)
    (hfuel : as.length ≤ fuel) :
    ∃ lo hi p, as = lo ++ hi ∧ findLoop m bp fuel freep = some p ∧ Found m lo hi bp p := by
  obtain ⟨lo, hi, rfl, hlo, hhi⟩ := FreeList.split h.apart hfits
  have hpos := hfits.add_le_stop
  have hne : hi ++ lo ≠ [] := fun h0 => h.ne_nil (by simp_all)
  obtain ⟨init, p, hinit⟩ := (List.eq_nil_or_concat' _).resolve_left hne
  obtain ⟨q, t, hq⟩ := List.exists_cons_of_ne_nil hne
  have hlinked := linked_append_comm h.linked
  rw [hq, linked_iff (hinit.symm.trans hq)] at hlinked
  obtain ⟨hnext, hp⟩ := hlinked
  refine ⟨lo, hi, p, rfl, ?_, h.apart, hlo, hhi, hpos, init, t, hinit, by rw [hp]; exact hq, hnext⟩
  have hlt : ∀ a ∈ lo, a < bp := fun a ha =>
    (Nat.lt_add_of_pos_right (by decide)).trans_le (hlo a ha).1
  have hgt : ∀ b ∈ hi, bp < b := fun b hb =>
    ((Nat.lt_add_of_pos_right (by decide)).trans_le hpos).trans_le (hhi b hb)
  have hchain := isChain_not_stops h.apart hlt hgt
  rw [hinit] at hchain
  apply findLoop_walk hchain
  · rw [hnext, ← hinit, hq]
    rfl
  · rw [hp]
    exact stops_last h.apart hlt hgt hinit hq
  · rw [← hinit, List.mem_append, or_comm, ← List.mem_append]
    exact hf
  · have hlen := congrArg List.length hinit
    simp only [List.length_append, List.length_singleton] at hlen hfuel
    omega

/-- **`free` keeps the free list**: it terminates, and the blocks of the new list are apart
and cover what the old ones and the freed one did.  The freed block is not to end where the
only block of the list begins, and the units are to fit into `s.size`. -/
theorem free_keeps (h : FreeList m as) (hf : freep ∈ as) (hfits : Fits m as bp)
    (hone : as ≠ [m.stop bp]) (hroom : m.total as + (m.size bp).toNat < 2 ^ 32)
    (hfuel : as.length ≤ fuel) :
    ∃ m' freep' as', free fuel m freep (bp + headerSize) = some (m', freep') ∧
      FreeList m' as' ∧ freep' ∈ as' ∧
      (∀ x, m'.Covers as' x ↔ m.Covers as x ∨ bp ≤ x ∧ x < m.stop bp) ∧
      m'.total as' = m.total as + (m.size bp).toNat := by
  obtain ⟨lo, hi, p, rfl, hfind, hfound⟩ := h.find hf hfits hfuel
  have htotal : m.total (bp :: (lo ++ hi)) = m.total (lo ++ hi) + (m.size bp).toNat := by
    rw [total_cons, Nat.add_comm]
  obtain ⟨hi', hgap, hcov, htot⟩ := hfound.joinUpper hone (htotal.trans_lt hroom)
  obtain ⟨as', hlist, hp, hcov', htot'⟩ := hgap.joinLower (htot.trans htotal ▸ hroom)
  refine ⟨_, p, as', ?_, hlist, hp, ?_, htot'.trans (htot.trans htotal)⟩
  · unfold free
    rw [Nat.add_sub_cancel]
    dsimp only
    rw [hfind]
    rfl
  · intro x
    rw [hcov', hcov, covers_cons, or_comm]

/-- A list of three blocks, and a block between the second and the third. -/
def threeBlocks : Mem where
  ptr a := if a = 64 then 160 else if a = 160 then 320 else 64
  size a := if a = 192 then 8 else 2

theorem freeList_three : FreeList threeBlocks [64, 160, 320] := by
  refine ⟨by decide, ?_, rfl⟩
  unfold Mem.Apart
  decide

/-- The block is joined with both, wherever `freep` is. -/
theorem free_keeps_between :
    (∃ m' freep' as', free 3 threeBlocks 320 (192 + headerSize) = some (m', freep') ∧
      FreeList m' as' ∧ freep' ∈ as' ∧
      (∀ x, m'.Covers as' x ↔
        threeBlocks.Covers [64, 160, 320] x ∨ 192 ≤ x ∧ x < threeBlocks.stop 192) ∧
      m'.total as' = threeBlocks.total [64, 160, 320] + (threeBlocks.size 192).toNat) ∧
    (free 3 threeBlocks 320 (192 + headerSize)).map
      (fun r => (r.1.ptr 64, r.1.ptr 160, r.1.size 160, r.2)) = some (160, 64, 12, 160) :=
  ⟨free_keeps freeList_three (by decide) ⟨by decide, by decide⟩ (by decide) (by decide) le_rfl,
    by decide⟩

/-- Headers of two blocks of two units. -/
def twoBlocks : Mem := ⟨fun _ => 160, fun _ => 2⟩

theorem freeList_single : FreeList twoBlocks [160] :=
  ⟨by decide, List.pairwise_singleton .., rfl⟩

/-- **A block that ends where the only block begins**: that block is joined, and stays in the
list. -/
theorem free_below_single :
    FreeList twoBlocks [160] ∧ 160 ∈ [160] ∧ Fits twoBlocks [160] 128 ∧
      ∃ m', free 1 twoBlocks 160 (128 + headerSize) = some (m', 160) ∧
        ∀ as', FreeList m' as' → 160 ∉ as' := by
  refine ⟨freeList_single, by decide, ⟨by decide, by decide⟩, _, rfl, ?_⟩
  intro as' h hmem
  -- 160 leads to 128, whose block goes up to 192
  have hmem' : 128 ∈ as' := h.linked.next_mem hmem
  rcases List.pairwise_iff_getElem.mp h.apart with hap
  obtain ⟨i, hi, hi160⟩ := List.getElem_of_mem hmem
  obtain ⟨j, hj, hj128⟩ := List.getElem_of_mem hmem'
  rcases lt_trichotomy i j with hij | rfl | hij
  · have := (hap i j hi hj hij).1
    rw [hi160, hj128] at this
    exact absurd this (by decide)
  · exact absurd (hi160.symm.trans hj128) (by decide)
  · have := (hap j i hj hi hij).2
    rw [hi160, hj128] at this
    exact absurd this (by decide)

end Umalloc

end Xv6Zig
