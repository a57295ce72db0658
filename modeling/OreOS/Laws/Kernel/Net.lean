import OreOS.Laws.Kernel.Ring
import OreOS.Lib.Run

/-!
# Every delivered frame is returned once

The driver shares `CURR`, `ISR` and the memory with the receiver; the command
register and the DMA address are its own. An assertion about the ring that the
receiver keeps (`Steady`) is carried through the accesses of the driver next to
the values of its own registers (`Owned`). In the system the call under way
meets its specification from wherever it is (`Dialog.Meets`).
-/

namespace OreOS.Kernel

open OreOS.Lib (Byte Run runList)
open OreOS.Lib.Dialog (Stable meets_ask meets_ret)

/-- The device, with the frames it has delivered. -/
abbrev Receiver := Ne2000 × List (List Byte)

theorem getElem?_snoc {α : Type} {l : List α} {i : Nat} {a : α} (h : l[i]? = some a) (b : α) :
    (l ++ [b])[i]? = some a := by
  rw [List.getElem?_append_left (List.getElem?_eq_some_iff.mp h).1, h]

/-- An access does not change what has been delivered. -/
def answer (a : Access) (s : Receiver) : a.Answer × Receiver :=
  ((Ne2000.access a s.1).1, (Ne2000.access a s.1).2, s.2)

/-- One delivery. -/
def Receives (s t : Receiver) : Prop :=
  ∃ f, 60 ≤ f.length ∧ f.length ≤ 1596 ∧ KeepsBoundary s.1 f ∧ t = (s.1.deliver f, s.2 ++ [f])

/-- The surroundings leave the driver's registers alone, and the assertion is
about the ring and is kept. -/
structure Steady (env : Receiver → Receiver → Prop) (p : Receiver → Prop) : Prop where
  stable : Stable env p
  regs : ∀ {s t}, env s t → t.1.cr = s.1.cr ∧ t.1.rsar = s.1.rsar
  ring : ∀ {d d' fs}, d'.bnry = d.bnry → d'.curr = d.curr → d'.mem = d.mem → p (d, fs) → p (d', fs)

/-- The assertion, and the values of the driver's registers. -/
structure Owned (p : Receiver → Prop) (cr : Byte) (rsar : BitVec 16) (s : Receiver) : Prop where
  holds : p s
  cr : s.1.cr = cr
  rsar : s.1.rsar = rsar

section Accesses

variable {α : Type} {env : Receiver → Receiver → Prop} {p : Receiver → Prop} {s : Receiver}
variable {post : α → Receiver → Prop} {cr reg v : Byte} {rsar : BitVec 16}

/-- Deliveries leave the driver what it owns. -/
theorem Steady.owned (hp : Steady env p) : Stable env (Owned p cr rsar) := by
  intro s t hstep h
  obtain ⟨hcr, hrsar⟩ := hp.regs hstep
  exact ⟨hp.stable hstep h.holds, hcr.trans h.cr, hrsar.trans h.rsar⟩

theorem Steady.owned_some (hp : Steady env p) {bytes : List Byte} (out : List Byte) :
    Stable env (fun t => out = bytes ∧ ∃ rsar, Owned p cr rsar t) := by
  rintro t u hstep ⟨hout, x, hx⟩
  exact ⟨hout, x, hp.owned hstep hx⟩

/-- The ports of the registers. -/
theorem neBase_add (hreg : reg < 16) :
    (neBase ≤ neBase + reg.setWidth 16 ∧ neBase + reg.setWidth 16 < neData) ∧
      neBase + reg.setWidth 16 - neBase = reg.setWidth 16 := by
  unfold neData neBase
  bv_omega

/-- A byte to a port of the card is a byte to the register. -/
theorem access_outb (hreg : reg < 16) (d : Ne2000) :
    (Ne2000.access (.outb (neBase + reg.setWidth 16) v) d).2 = d.writeReg (reg.setWidth 16) v := by
  rw [Ne2000.access, if_pos (neBase_add hreg).1, (neBase_add hreg).2]

/-- A byte from a port of the card is read from the register, with no effect. -/
theorem access_inb (hreg : reg < 16) (d : Ne2000) :
    Ne2000.access (.inb (neBase + reg.setWidth 16)) d = (d.readReg (reg.setWidth 16), d) := by
  rw [Ne2000.access, if_pos (neBase_add hreg).1, (neBase_add hreg).2]
  rfl

/-- The rule for `ne_write`: the device may change before the access, but not what is stable. -/
theorem meets_neWrite {k : Unit → Driver α} {pre : Receiver → Prop} (hreg : reg < 16)
    (hpre : Stable env pre) (h : pre s)
    (hnext : ∀ d fs, pre (d, fs) →
      (k ()).Meets answer env post (d.writeReg (reg.setWidth 16) v, fs)) :
    (neWrite reg v >>= k).Meets answer env post s := by
  refine meets_ask hpre h fun t ht => ?_
  have hnext := hnext t.1 t.2 ht
  rw [← access_outb hreg] at hnext
  exact hnext

/-- The rule for `ne_read`. -/
theorem meets_neRead {k : Byte → Driver α} {pre : Receiver → Prop} (hreg : reg < 16)
    (hpre : Stable env pre) (h : pre s)
    (hnext : ∀ d fs, pre (d, fs) →
      (k (d.readReg (reg.setWidth 16))).Meets answer env post (d, fs)) :
    (neRead reg >>= k).Meets answer env post s := by
  refine meets_ask hpre h fun t ht => ?_
  unfold answer
  rw [access_inb hreg]
  exact hnext t.1 t.2 ht

/-- A write to the command register, which is the driver's own. -/
theorem meets_cr {k : Unit → Driver α} (hp : Steady env p) (h : Owned p cr rsar s)
    (hnext : ∀ t, Owned p v rsar t → (k ()).Meets answer env post t) :
    (neWrite neCr v >>= k).Meets answer env post s :=
  meets_neWrite (by decide) hp.owned h fun d fs hd =>
    hnext _ ⟨hp.ring (d := d) rfl rfl rfl hd.holds, rfl, hd.rsar⟩

/-- Page 0 is selected. -/
def Page0 (cr : Byte) : Prop := cr.extractLsb' 6 2 ≠ 1

theorem page0_start : Page0 neCmdStart := by
  unfold Page0
  decide

theorem Owned.page1 {d : Ne2000} {fs : List (List Byte)} (h : Owned p cr rsar (d, fs))
    (hpage : Page0 cr) : d.page1 = false := by
  rw [Ne2000.page1, show d.cr = cr from h.cr]
  exact decide_eq_false hpage

section

variable {k : Unit → Driver α} (hp : Steady env p) (h : Owned p cr rsar s) (hpage : Page0 cr)
include hp h hpage

/-- A register of page 0 other than `BNRY` and the DMA address. -/
theorem meets_page0 (hreg : reg < 16 ∧ ∀ r ∈ ([0, 3, 8, 9] : List Byte), reg ≠ r)
    (hnext : ∀ t, Owned p cr rsar t → (k ()).Meets answer env post t) :
    (neWrite reg v >>= k).Meets answer env post s := by
  refine meets_neWrite hreg.1 hp.owned h fun d fs hd => hnext _ ?_
  have hne : ∀ r ∈ ([0, 3, 8, 9] : List Byte), reg.setWidth 16 ≠ r.setWidth 16 := by
    intro r hr heq
    exact hreg.2 r hr (by bv_omega)
  have h0 : reg.setWidth 16 ≠ 0 := hne 0 (by simp)
  have h3 : reg.setWidth 16 ≠ 3 := hne 3 (by simp)
  have h8 : reg.setWidth 16 ≠ 8 := hne 8 (by simp)
  have h9 : reg.setWidth 16 ≠ 9 := hne 9 (by simp)
  unfold Ne2000.writeReg
  rw [if_neg h0, hd.page1 hpage, if_neg h3, if_neg h8, if_neg h9]
  simp only [Bool.false_eq_true, if_false]
  split_ifs
  all_goals exact ⟨hp.ring (d := d) rfl rfl rfl hd.holds, hd.cr, hd.rsar⟩

/-- A write to the low byte of the DMA address. -/
theorem meets_rsar0
    (hnext : ∀ t, Owned p cr (rsar.extractLsb' 8 8 ++ v) t → (k ()).Meets answer env post t) :
    (neWrite neRsar0 v >>= k).Meets answer env post s := by
  refine meets_neWrite (by decide) hp.owned h fun d fs hd => hnext _ ?_
  have hwrite : d.writeReg (neRsar0.setWidth 16) v =
      { d with rsar := d.rsar.extractLsb' 8 8 ++ v } := by
    unfold Ne2000.writeReg
    rw [hd.page1 hpage]
    rfl
  rw [hwrite]
  exact ⟨hp.ring (d := d) rfl rfl rfl hd.holds, hd.cr, by rw [← hd.rsar]⟩

/-- A write to the high byte of the DMA address. -/
theorem meets_rsar1
    (hnext : ∀ t, Owned p cr (v ++ rsar.extractLsb' 0 8) t → (k ()).Meets answer env post t) :
    (neWrite neRsar1 v >>= k).Meets answer env post s := by
  refine meets_neWrite (by decide) hp.owned h fun d fs hd => hnext _ ?_
  have hwrite : d.writeReg (neRsar1.setWidth 16) v =
      { d with rsar := v ++ d.rsar.extractLsb' 0 8 } := by
    unfold Ne2000.writeReg
    rw [hd.page1 hpage]
    rfl
  rw [hwrite]
  exact ⟨hp.ring (d := d) rfl rfl rfl hd.holds, hd.cr, by rw [← hd.rsar]⟩

end

/-- Waiting for the device changes nothing of what the driver knows. -/
theorem meets_pollIsr {mask : Byte} {n : Nat} (hp : Steady env p) (h : Owned p cr rsar s) :
    (pollIsr mask n).Meets answer env (fun _ t => Owned p cr rsar t) s := by
  induction n generalizing s with
  | zero => exact meets_ret hp.owned h
  | succ n ih =>
    refine meets_neRead (by decide) hp.owned h fun d fs hd => ?_
    split
    · exact meets_ret hp.owned hd
    · exact ih hd

/-- The bytes stand in the device's memory from `a` on. -/
def BytesAt (d : Ne2000) (a : BitVec 16) (bytes : List Byte) : Prop :=
  ∀ j b, bytes[j]? = some b → d.mem (a + BitVec.ofNat 16 j) = b

theorem BytesAt.head {d : Ne2000} {a : BitVec 16} {b : Byte} {bytes : List Byte}
    (h : BytesAt d a (b :: bytes)) : d.mem a = b := by
  have hb := h 0 b rfl
  rwa [BitVec.add_zero] at hb

theorem BytesAt.drop {d : Ne2000} {a : BitVec 16} {bytes : List Byte} (n : Nat)
    (h : BytesAt d a bytes) : BytesAt d (a + BitVec.ofNat 16 n) (bytes.drop n) := by
  intro j b hb
  rw [List.getElem?_drop] at hb
  rw [BitVec.add_assoc, ← BitVec.ofNat_add]
  exact h (n + j) b hb

/-- The rule for the data port: it gives two bytes and moves the DMA address. -/
theorem meets_inw {k : BitVec 16 → Driver α} (hp : Steady env p) (h : Owned p cr rsar s)
    (hnext : ∀ d fs, p (d, fs) → ∀ t, Owned p cr (rsar + 2) t →
      (k (d.mem (rsar + 1) ++ d.mem rsar)).Meets answer env post t) :
    (inw neData >>= k).Meets answer env post s := by
  refine meets_ask hp.owned h fun t ht => ?_
  have hdata : answer (.inw neData) t = (t.1.readData.1, t.1.readData.2, t.2) := rfl
  have hword : t.1.readData.1 = t.1.mem (rsar + 1) ++ t.1.mem rsar := by
    rw [← ht.rsar]
    rfl
  rw [hdata]
  rw [hword]
  refine hnext t.1 t.2 ht.holds _ ?_
  unfold Ne2000.readData
  rw [ht.rsar]
  split
  all_goals exact ⟨hp.ring (d := t.1) rfl rfl rfl ht.holds, ht.cr, rfl⟩

/-- The words of the data port are the bytes that the assertion places from
`rsar` on. -/
theorem meets_readWords (hp : Steady env p) : ∀ (bytes : List Byte) {rsar : BitVec 16}
    {s : Receiver}, Owned p cr rsar s → (∀ d fs, p (d, fs) → BytesAt d rsar bytes) →
    (readWords bytes.length).Meets answer env
      (fun out t => out = bytes ∧ ∃ rsar, Owned p cr rsar t) s
  | [], rsar, s, h, _ => meets_ret (hp.owned_some []) ⟨rfl, rsar, h⟩
  | [b], rsar, s, h, hbytes => by
    refine meets_inw hp h fun d fs hd t ht => meets_ret (hp.owned_some _) ⟨?_, _, ht⟩
    rw [BitVec.extractLsb'_append_eq_right, (hbytes d fs hd).head]
  | b :: c :: bytes, rsar, s, h, hbytes => by
    refine meets_inw hp h fun d fs hd t ht => ?_
    have hrest := meets_readWords hp bytes ht fun d fs hd => (hbytes d fs hd).drop 2
    refine (hrest.mono ?_).bind
    rintro out u ⟨rfl, x, hx⟩
    refine meets_ret (hp.owned_some _) ⟨?_, x, hx⟩
    rw [BitVec.extractLsb'_append_eq_right, BitVec.extractLsb'_append_eq_left, (hbytes d fs hd).head]
    exact congrArg (b :: · :: out) ((hbytes d fs hd).drop 1).head

/-- `ne_remote_read` of bytes that the assertion places in memory. -/
theorem meets_neRemoteRead (hp : Steady env p) (src len : BitVec 16) (bytes : List Byte)
    (hlen : bytes.length = len.toNat) (h : p s)
    (hbytes : ∀ d fs, p (d, fs) → BytesAt d src bytes) :
    (neRemoteRead src len).Meets answer env
      (fun out t => out = bytes ∧ ∃ x, Owned p neCmdStart x t) s := by
  have howned : Owned p s.1.cr s.1.rsar s := ⟨h, rfl, rfl⟩
  refine meets_cr hp howned fun t ht => ?_
  refine meets_page0 hp ht page0_start (by decide) fun t ht => ?_
  refine meets_page0 hp ht page0_start (by decide) fun t ht => ?_
  refine meets_page0 hp ht page0_start (by decide) fun t ht => ?_
  refine meets_rsar0 hp ht page0_start fun t ht => ?_
  refine meets_rsar1 hp ht page0_start fun t ht => ?_
  refine meets_cr hp ht fun t ht => ?_
  rw [BitVec.extractLsb'_append_eq_right, BitVec.extractLsb'_append_extractLsb'] at ht
  have hwords := meets_readWords hp bytes ht hbytes
  rw [hlen] at hwords
  refine (hwords.mono ?_).bind
  rintro out u ⟨rfl, x, hx⟩
  refine ((meets_pollIsr hp hx).mono fun _ v hv => ?_).bind
  exact meets_cr hp hv fun w hw => meets_ret (hp.owned_some out) ⟨rfl, x, hw⟩

end Accesses

/-! ## `net_recv_frame` -/

/-- What a delivery into free pages keeps, and is about the ring, is steady. -/
theorem steady_receives {p : Receiver → Prop}
    (hdeliver : ∀ d fs f, 60 ≤ f.length ∧ f.length ≤ 1596 → d.bnry ∉ d.written f → p (d, fs) →
      p (d.deliver f, fs ++ [f]))
    (hring : ∀ {d d' fs}, d'.bnry = d.bnry → d'.curr = d.curr → d'.mem = d.mem → p (d, fs) →
      p (d', fs)) : Steady Receives p := by
  refine ⟨?_, ?_, hring⟩
  · rintro ⟨d, fs⟩ t ⟨f, hlow, hhigh, hkeep, rfl⟩ hp
    exact hdeliver d fs f ⟨hlow, hhigh⟩ hkeep.2 hp
  · rintro ⟨d, fs⟩ t ⟨f, -, -, -, rfl⟩
    exact ⟨rfl, rfl⟩

/-- `read` frames have been read, the next one is to begin at page `k` of the
row, and at least `before` have been delivered. -/
structure Queue (read k before : Nat) (s : Receiver) : Prop where
  holds : RingHolds s.1 s.2 read
  start : startPage (s.2.take read) = k
  before : before ≤ s.2.length

/-- Frame number `read` is `f`, unread, from page `k` of the row on. -/
structure Oldest (read k : Nat) (f : List Byte) (s : Receiver) : Prop where
  holds : RingHolds s.1 s.2 read
  start : startPage (s.2.take read) = k
  frame : s.2[read]? = some f

/-- The unread frames stay where they are while others come in. -/
theorem steady_queue (read k before : Nat) : Steady Receives (Queue read k before) := by
  refine steady_receives (fun d fs f hsize hkeep h => ?_) fun hbnry hcurr hmem h => ?_
  · have hle : before ≤ fs.length := h.before
    refine ⟨h.holds.deliver hsize hkeep, ?_, by rw [List.length_append]; omega⟩
    rw [List.take_append_of_le_length h.holds.le]
    exact h.start
  · exact ⟨h.holds.congr hbnry hcurr hmem, h.start, h.before⟩

/-- The oldest unread frame stays where it is while others come in. -/
theorem steady_oldest (read k : Nat) (f : List Byte) : Steady Receives (Oldest read k f) := by
  refine steady_receives (fun d fs g hsize hkeep h => ?_) fun hbnry hcurr hmem h => ?_
  · refine ⟨h.holds.deliver hsize hkeep, ?_, getElem?_snoc h.frame g⟩
    rw [List.take_append_of_le_length h.holds.le]
    exact h.start
  · exact ⟨h.holds.congr hbnry hcurr hmem, h.start, h.frame⟩

/-- Frame number `read` is `f` and has been read. -/
def Taken (read : Nat) (f : List Byte) (s : Receiver) : Prop :=
  RingHolds s.1 s.2 (read + 1) ∧ s.2[read]? = some f

theorem steady_taken (read : Nat) (f : List Byte) : Steady Receives (Taken read f) := by
  refine steady_receives (fun d fs g hsize hkeep h => ?_) fun hbnry hcurr hmem h => ?_
  · exact ⟨h.1.deliver hsize hkeep, getElem?_snoc h.2 g⟩
  · exact ⟨h.1.congr hbnry hcurr hmem, h.2⟩

/-- What a call may return, and the ring after it. -/
def RecvOutcome (cap : BitVec 64) (before read : Nat) (r : Received) (t : Receiver) : Prop :=
  (r = .nothing ∧ before ≤ read ∧ RingHolds t.1 t.2 read) ∨
    ∃ f, t.2[read]? = some f ∧ r = .frame (BitVec.ofNat 16 (min cap.toNat f.length)) (f.take cap.toNat) ∧
      RingHolds t.1 t.2 (read + 1)

section Oldest

variable {read k : Nat} {f : List Byte} {d : Ne2000} {fs : List (List Byte)}

/-- The bytes of the row up to the end of the ring. -/
theorem ringAddr_low {j : Nat} (hj : k % 58 * 256 + j < 14848) :
    ringAddr (k * 256 + j) = (ringPage k).setWidth 16 * 256 + BitVec.ofNat 16 j := by
  apply BitVec.eq_of_toNat_eq
  have hpage := toNat_ringPage k
  rw [toNat_ringAddr, BitVec.toNat_add, BitVec.toNat_mul, BitVec.toNat_setWidth, hpage,
    BitVec.toNat_ofNat, show (256 : BitVec 16).toNat = 256 from rfl]
  omega

/-- The bytes of the row behind the end of the ring. -/
theorem ringAddr_high {j : Nat} (hlow : 14848 ≤ k % 58 * 256 + j)
    (hhigh : k % 58 * 256 + j < 2 * 14848) :
    ringAddr (k * 256 + j) =
      neRxStart.setWidth 16 * 256 + BitVec.ofNat 16 (k % 58 * 256 + j - 14848) := by
  apply BitVec.eq_of_toNat_eq
  rw [toNat_ringAddr, BitVec.toNat_add, BitVec.toNat_ofNat,
    show (neRxStart.setWidth 16 * 256 : BitVec 16).toNat = 0x4600 from rfl]
  omega

section

variable (h : Oldest read k f (d, fs))
include h

/-- The header of the oldest frame is at the beginning of its page. -/
theorem Oldest.bytes_header :
    BytesAt d ((ringPage k).setWidth 16 * 256) (frameHeader (ringPage (k + framePages f)) f) := by
  intro j b hb
  have hj := (List.getElem?_eq_some_iff.mp hb).1
  rw [length_frameHeader] at hj
  have hstored := h.holds.stored read f (Nat.le_refl _) h.frame j b
  rw [h.start, List.getElem?_append_left (by rw [length_frameHeader]; exact hj)] at hstored
  rw [← ringAddr_low (by omega)]
  exact hstored hb

/-- The bytes of the oldest frame follow its header around the ring. -/
theorem Oldest.byte {j : Nat} {b : Byte} (hb : f[j]? = some b) :
    d.mem (ringAddr (k * 256 + (4 + j))) = b := by
  have hstored := h.holds.stored read f (Nat.le_refl _) h.frame (4 + j) b
  rw [h.start, List.getElem?_append_right (by rw [length_frameHeader]; omega),
    length_frameHeader, Nat.add_sub_cancel_left] at hstored
  exact hstored hb

/-- A run of the frame's bytes that does not pass the end of the ring. -/
theorem Oldest.bytes_low {n : Nat} (hn : k % 58 * 256 + 4 + n ≤ 14848) :
    BytesAt d ((ringPage k).setWidth 16 * 256 + 4) (f.take n) := by
  intro j b hb
  have hj := (List.getElem?_eq_some_iff.mp hb).1
  rw [List.length_take] at hj
  rw [List.getElem?_take_of_lt (by omega)] at hb
  have hbyte := h.byte hb
  rw [ringAddr_low (by omega), BitVec.ofNat_add, ← BitVec.add_assoc] at hbyte
  exact hbyte

/-- The frame's bytes behind the end of the ring. -/
theorem Oldest.bytes_high {n m : Nat} (hn : k % 58 * 256 + 4 + n = 14848) (hm : m ≤ 1596) :
    BytesAt d (neRxStart.setWidth 16 * 256) ((f.take m).drop n) := by
  intro j b hb
  rw [List.getElem?_drop] at hb
  have hj := (List.getElem?_eq_some_iff.mp hb).1
  rw [List.length_take] at hj
  rw [List.getElem?_take_of_lt (by omega)] at hb
  have hbyte := h.byte hb
  rw [ringAddr_high (by omega) (by omega),
    show k % 58 * 256 + (4 + (n + j)) - 14848 = j by omega] at hbyte
  exact hbyte

end

end Oldest

theorem header_count (next : Byte) (f : List Byte) :
    ((frameHeader next f).getD 3 0 ++ (frameHeader next f).getD 2 0 : BitVec 16) =
      BitVec.ofNat 16 (f.length + 4) :=
  BitVec.extractLsb'_append_extractLsb'

/-- The length that `net_recv_frame` copies: the frame, or as much of it as there is room for. -/
theorem frameLen_eq {cap : BitVec 64} {count : BitVec 16} {n : Nat}
    (hcount : count = BitVec.ofNat 16 (n + 4)) (hn : n ≤ 1596) :
    (if (count - 4).setWidth 64 > cap then cap.setWidth 16 else count - 4) =
      BitVec.ofNat 16 (min cap.toNat n) := by
  have hlen : (count - 4).toNat = n := by bv_omega
  have hwide : ((count - 4).setWidth 64 : BitVec 64).toNat = n := by bv_omega
  apply BitVec.eq_of_toNat_eq
  split
  next h =>
    rw [gt_iff_lt, BitVec.lt_def, hwide] at h
    rw [BitVec.toNat_setWidth, BitVec.toNat_ofNat, Nat.min_eq_left (by omega)]
  next h =>
    rw [gt_iff_lt, BitVec.lt_def, hwide] at h
    rw [hlen, BitVec.toNat_ofNat, Nat.min_eq_right (by omega)]
    omega

section Recv

variable {cap : BitVec 64} {before read k : Nat} {f : List Byte} {s : Receiver}

/-- What a call may return is not changed by deliveries after it. -/
theorem stable_outcome (cap : BitVec 64) (before read : Nat) (r : Received) :
    Stable Receives (RecvOutcome cap before read r) := by
  rintro ⟨d, fs⟩ t ⟨g, hlow, hhigh, hkeep, rfl⟩ h
  rcases h with ⟨hr, hle, hring⟩ | ⟨f, hf, hr, hring⟩
  · exact .inl ⟨hr, hle, hring.deliver ⟨hlow, hhigh⟩ hkeep.2⟩
  · exact .inr ⟨f, getElem?_snoc hf g, hr, hring.deliver ⟨hlow, hhigh⟩ hkeep.2⟩

/-- `ne_read_ring` reads the oldest frame, also where it runs over the end of the ring. -/
theorem meets_readRing {n : Nat} (hn : n ≤ f.length) (hf : f.length ≤ 1596)
    (h : Oldest read k f s) :
    (readRing ((ringPage k).setWidth 16 * 256 + 4) (BitVec.ofNat 16 n)).Meets answer Receives
      (fun out t => out = f.take n ∧ ∃ x, Owned (Oldest read k f) neCmdStart x t) s := by
  have hp := steady_oldest read k f
  have hpage := toNat_ringPage k
  have hsrc : ((ringPage k).setWidth 16 * 256 + 4 : BitVec 16).toNat =
      0x4600 + (k % 58 * 256 + 4) := by bv_omega
  have hfirst : (neRxStop.setWidth 16 * 256 - ((ringPage k).setWidth 16 * 256 + 4) : BitVec 16) =
      BitVec.ofNat 16 (14848 - (k % 58 * 256 + 4)) := by
    have hstop : (neRxStop.setWidth 16 * 256 : BitVec 16).toNat = 0x8000 := rfl
    apply BitVec.eq_of_toNat_eq
    rw [BitVec.toNat_sub_of_le (by rw [BitVec.le_def]; omega), BitVec.toNat_ofNat]
    omega
  have hlen : ∀ m : Nat, m ≤ 14848 → (BitVec.ofNat 16 m).toNat = m := by bv_omega
  unfold readRing
  dsimp only
  rw [hfirst]
  split
  next hge =>
    rw [ge_iff_le, BitVec.le_def, hlen _ (by omega), hlen _ (by omega)] at hge
    refine meets_neRemoteRead hp _ _ _ ?_ h fun d fs hd => hd.bytes_low (by omega)
    rw [List.length_take, hlen n (by omega)]
    omega
  next hlt =>
    rw [ge_iff_le, BitVec.le_def, hlen _ (by omega), hlen _ (by omega)] at hlt
    generalize hcut : 14848 - (k % 58 * 256 + 4) = cut at *
    have hlow := meets_neRemoteRead hp _ (BitVec.ofNat 16 cut) (f.take cut)
      (by rw [List.length_take, hlen cut (by omega)]; omega) h
      fun d fs hd => hd.bytes_low (by omega)
    refine (hlow.mono ?_).bind
    rintro low t ⟨rfl, _, ht⟩
    have hhigh := meets_neRemoteRead hp _ (BitVec.ofNat 16 n - BitVec.ofNat 16 cut)
      ((f.take n).drop cut) (by
        rw [List.length_drop, List.length_take, BitVec.toNat_sub_of_le, hlen _ (by omega),
          hlen _ (by omega)]
        · omega
        · rw [BitVec.le_def, hlen _ (by omega), hlen _ (by omega)]
          omega) ht.holds
      fun d fs hd => hd.bytes_high (by omega) (by omega)
    refine (hhigh.mono ?_).bind
    rintro high u ⟨rfl, hu⟩
    refine meets_ret (hp.owned_some _) ⟨?_, hu⟩
    conv_rhs => rw [← List.take_append_drop cut (f.take n), List.take_take,
      Nat.min_eq_left (by omega)]

/-- The oldest frame is copied and given back to the device. -/
theorem meets_takeFrame (h : Oldest read k f s) :
    (takeFrame cap (ringPage k)).Meets answer Receives (RecvOutcome cap before read) s := by
  have hp := steady_oldest read k f
  have hsize := h.holds.size f (List.mem_of_getElem? h.frame)
  have hheader := meets_neRemoteRead hp ((ringPage k).setWidth 16 * 256) 4
    (frameHeader (ringPage (k + framePages f)) f) rfl h fun d fs hd => hd.bytes_header
  refine (hheader.mono ?_).bind
  rintro hdr t ⟨rfl, _, ht⟩
  rw [header_count, show (frameHeader (ringPage (k + framePages f)) f).getD 1 0 =
    ringPage (k + framePages f) from rfl]
  have hnext := toNat_ringPage (k + framePages f)
  have hcount : (BitVec.ofNat 16 (f.length + 4)).toNat = f.length + 4 := by bv_omega
  have hvalid : ¬ (ringPage (k + framePages f) < neRxStart ∨
      ringPage (k + framePages f) ≥ neRxStop ∨ BitVec.ofNat 16 (f.length + 4) < 4 ∨
      BitVec.ofNat 16 (f.length + 4) > 1600) := by
    have hstart : neRxStart.toNat = 0x46 := rfl
    have hstop : neRxStop.toNat = 0x80 := rfl
    have hfour : (4 : BitVec 16).toNat = 4 := rfl
    have hmax : (1600 : BitVec 16).toNat = 1600 := rfl
    rw [gt_iff_lt, ge_iff_le, BitVec.lt_def, BitVec.le_def, BitVec.lt_def, BitVec.lt_def]
    omega
  rw [if_neg hvalid, frameLen_eq rfl hsize.2]
  refine ((meets_readRing (Nat.min_le_right _ _) hsize.2 ht.holds).mono ?_).bind
  rintro bytes u ⟨rfl, x, hu⟩
  -- `BNRY` moves to the last page of the frame.
  obtain ⟨n, hn⟩ : ∃ n, k + framePages f = n + 1 :=
    ⟨k + framePages f - 1, by have := framePages_pos f; omega⟩
  rw [hn, prev_ringPage]
  refine meets_neWrite (by decide) hp.owned hu fun d fs hd => ?_
  have hbnry : d.writeReg (neBnry.setWidth 16) (ringPage n) = { d with bnry := ringPage n } := by
    unfold Ne2000.writeReg
    rw [hd.page1 page0_start]
    rfl
  rw [hbnry]
  have htaken : Taken read f ({ d with bnry := ringPage n }, fs) := by
    have hold := hd.holds
    refine ⟨hold.holds.advance hold.frame ?_ rfl rfl, hold.frame⟩
    rw [startPage_take_succ hold.frame, hold.start, hn]
    rfl
  refine meets_page0 (steady_taken read f) ⟨htaken, hd.cr, rfl⟩ page0_start (by decide)
    fun t ht => meets_ret (stable_outcome cap before read _) (.inr ⟨f, ht.holds.2, ?_, ht.holds.1⟩)
  rw [← List.take_eq_take_min]

/-- `BNRY` gives the page at which the oldest frame would begin. -/
theorem meets_page {p : Receiver → Prop} {c : Byte} {x : BitVec 16} {j : Nat}
    {post : Received → Receiver → Prop} (rest : Byte → Driver Received) (hp : Steady Receives p)
    (h : Owned p c x s) (hbnry : ∀ d fs, p (d, fs) → d.bnry = ringPage j)
    (hnext : ∀ t, p t → (rest (ringPage (j + 1))).Meets answer Receives post t) :
    (do
      neSelectPage0
      let bnry ← neRead neBnry
      rest (if bnry + 1 ≥ neRxStop then neRxStart else bnry + 1)).Meets answer Receives post s := by
  refine meets_cr hp h fun t ht => ?_
  refine meets_neRead (by decide) hp.owned ht fun d fs hd => ?_
  have hread : d.readReg (neBnry.setWidth 16) = ringPage j := by
    rw [← hbnry d fs hd.holds]
    unfold Ne2000.readReg
    rw [hd.page1 page0_start]
    rfl
  rw [hread, next_ringPage]
  exact hnext _ hd.holds

/-- `net_recv_frame`, with deliveries at any point: it returns the oldest frame, or nothing if no
frame was there when it began. -/
theorem meets_netRecvFrame (hcap : 64 ≤ cap) (h : RingHolds s.1 s.2 read)
    (hbefore : before ≤ s.2.length) :
    (netRecvFrame cap).Meets answer Receives (RecvOutcome cap before read) s := by
  obtain ⟨j, hj⟩ : ∃ j, startPage (s.2.take read) = j + 1 :=
    ⟨startPage (s.2.take read) - 1, by have := startPage_pos (s.2.take read); omega⟩
  have hp := steady_queue read (j + 1) before
  unfold netRecvFrame
  rw [if_neg (by bv_omega)]
  refine meets_cr hp ⟨⟨h, hj, hbefore⟩, rfl, rfl⟩ fun t ht => ?_
  refine meets_neRead (by decide) hp.owned ht fun d fs hd => ?_
  have hcurr : d.readReg (neCurr.setWidth 16) = d.curr := by
    unfold Ne2000.readReg Ne2000.page1
    rw [show d.cr = neCmdPage1 from hd.cr]
    rfl
  rw [hcurr]
  have hqueue := hd.holds
  have hempty := hqueue.holds.page_eq_curr_iff
  rw [hqueue.start] at hempty
  have hback : ∀ d fs, RingHolds d fs read → startPage (fs.take read) = j + 1 →
      d.bnry = ringPage j := by
    intro d fs hring hstart
    rw [hring.bnry, hstart]
    rfl
  let rest (page : Byte) : Driver Received :=
    if page = d.curr then return .nothing else takeFrame cap page
  -- Whether `CURR` says that nothing is unread is settled when it is read.
  by_cases hall : read = fs.length
  · refine meets_page rest hp ⟨hqueue, hd.cr, rfl⟩ (fun d fs hd => hback d fs hd.holds hd.start)
      fun u hu => ?_
    rw [show rest (ringPage (j + 1)) = _ from if_pos (hempty.mpr hall)]
    exact meets_ret (stable_outcome cap before read _)
      (.inl ⟨rfl, hall ▸ hqueue.before, hu.holds⟩)
  · have hlt : read < fs.length := by
      have hle : read ≤ fs.length := hqueue.holds.le
      omega
    have hold : Oldest read (j + 1) fs[read] (d, fs) :=
      ⟨hqueue.holds, hqueue.start, List.getElem?_eq_getElem hlt⟩
    refine meets_page rest (steady_oldest read (j + 1) fs[read]) ⟨hold, hd.cr, rfl⟩
      (fun d fs hd => hback d fs hd.holds hd.start) fun u hu => ?_
    rw [show rest (ringPage (j + 1)) = _ from if_neg (mt hempty.mp hall)]
    exact meets_takeFrame hu

end Recv

/-! ## `net_init` -/

/-- Nothing is delivered while the driver sets the device up. -/
def NoDelivery (_ _ : Receiver) : Prop := False

theorem steady_noDelivery {p : Receiver → Prop}
    (hring : ∀ {d d' fs}, d'.bnry = d.bnry → d'.curr = d.curr → d'.mem = d.mem → p (d, fs) →
      p (d', fs)) : Steady NoDelivery p :=
  ⟨fun _ _ h => h.elim, fun h => h.elim, hring⟩

section Init

variable {α : Type} {p : Receiver → Prop} {s : Receiver} {post : α → Receiver → Prop}
variable {reg v cr : Byte} {rsar : BitVec 16}

/-- A register of page 1 other than `CURR`. -/
theorem meets_page1 {k : Unit → Driver α} (hp : Steady NoDelivery p)
    (h : Owned p neCmdPage1 rsar s) (hreg : reg < 16 ∧ reg ≠ 0 ∧ reg ≠ 7)
    (hnext : ∀ t, Owned p neCmdPage1 rsar t → (k ()).Meets answer NoDelivery post t) :
    (neWrite reg v >>= k).Meets answer NoDelivery post s := by
  refine meets_neWrite hreg.1 hp.owned h fun d fs hd => hnext _ ?_
  have h0 : reg.setWidth 16 ≠ (0 : BitVec 16) := fun heq => hreg.2.1 (by bv_omega)
  have h7 : reg.setWidth 16 ≠ (7 : BitVec 16) := fun heq => hreg.2.2 (by bv_omega)
  have hsame : d.writeReg (reg.setWidth 16) v = d := by
    unfold Ne2000.writeReg Ne2000.page1
    rw [if_neg h0, show d.cr = neCmdPage1 from hd.cr, if_pos (by decide), if_neg h7]
  rw [hsame]
  exact hd

/-- A row of registers of page 1. -/
theorem meets_writeRegs {k : Unit → Driver α} (hp : Steady NoDelivery p) {vs : List Byte}
    (h : Owned p neCmdPage1 rsar s) (hlow : 0 < reg.toNat)
    (hhigh : reg.toNat + vs.length ≤ 7 ∨ 7 < reg.toNat ∧ reg.toNat + vs.length ≤ 16)
    (hnext : ∀ t, Owned p neCmdPage1 rsar t → (k ()).Meets answer NoDelivery post t) :
    (writeRegs reg vs >>= k).Meets answer NoDelivery post s := by
  induction vs generalizing reg s with
  | nil => exact hnext s h
  | cons v vs ih =>
    rw [List.length_cons] at hhigh
    refine meets_page1 hp h (by bv_omega) fun t ht => ?_
    exact ih ht (by bv_omega) (by bv_omega)

theorem meets_resetCard (hp : Steady NoDelivery p) (h : Owned p cr rsar s) :
    resetCard.Meets answer NoDelivery (fun _ t => Owned p cr rsar t) s :=
  meets_ask hp.owned h fun _ ht => meets_ask hp.owned ht fun _ ht =>
    meets_ask hp.owned ht fun _ ht => meets_pollIsr hp ht

/-- The second half of `net_init`: the addresses, then an empty ring. -/
theorem meets_initRing (hp : Steady NoDelivery p) (hbnry : ∀ d fs, p (d, fs) → d.bnry = neRxStart)
    (mac : List Byte) (hmac : mac.length = 6) (h : Owned p cr rsar s) :
    (do
      neSelectPage1
      writeRegs nePar0 mac
      writeRegs neMar0 (List.replicate 8 0xff)
      neWrite neCurr (neRxStart + 1)
      neSelectPage0
      neWrite neRcr 0x04
      neWrite neTcr 0x00
      neWrite neIsr 0xff
      return true : Driver Bool).Meets answer NoDelivery
        (fun _ t => t.1.bnry = neRxStart ∧ t.1.curr = neRxStart + 1) s := by
  have hready := steady_noDelivery (p := fun s => s.1.bnry = neRxStart ∧ s.1.curr = neRxStart + 1)
    fun hb hc _ hd => ⟨hb.trans hd.1, hc.trans hd.2⟩
  refine meets_cr hp h fun t ht => ?_
  refine meets_writeRegs hp ht (by decide) (.inl (by rw [hmac]; decide)) fun t ht => ?_
  refine meets_writeRegs hp ht (by decide) (.inr (by decide)) fun t ht => ?_
  refine meets_neWrite (by decide) hp.owned ht fun d fs hd => ?_
  have hcurr : d.writeReg (neCurr.setWidth 16) (neRxStart + 1) =
      { d with curr := neRxStart + 1 } := by
    unfold Ne2000.writeReg Ne2000.page1
    rw [show d.cr = neCmdPage1 from hd.cr]
    rfl
  rw [hcurr]
  refine meets_cr hready ⟨⟨hbnry d fs hd.holds, rfl⟩, rfl, rfl⟩ fun t ht => ?_
  refine meets_page0 hready ht page0_start (by decide) fun t ht => ?_
  refine meets_page0 hready ht page0_start (by decide) fun t ht => ?_
  refine meets_page0 hready ht page0_start (by decide) fun t ht => ?_
  exact meets_ret hready.stable ht.holds

/-- `net_init` leaves an empty ring if it finds the card. -/
theorem meets_netInit (d : Ne2000) :
    netInit.Meets answer NoDelivery
      (fun ready t => ready = true → t.1.bnry = neRxStart ∧ t.1.curr = neRxStart + 1) (d, []) := by
  have hp := steady_noDelivery (p := fun s => s.1.mem = d.mem) fun _ _ h hd => h.trans hd
  have hbnry := steady_noDelivery (p := fun s => s.1.bnry = neRxStart ∧ s.1.mem = d.mem)
    fun hb _ h hd => ⟨hb.trans hd.1, h.trans hd.2⟩
  have hstop : Page0 neCmdStop := by unfold Page0; decide
  have howned : Owned (fun s => s.1.mem = d.mem) d.cr d.rsar (d, []) := ⟨rfl, rfl, rfl⟩
  refine ((meets_resetCard hp howned).mono fun _ t ht => ?_).bind
  refine meets_cr hp ht fun t ht => ?_
  refine meets_page0 hp ht hstop (by decide) fun t ht => ?_
  refine meets_page0 hp ht hstop (by decide) fun t ht => ?_
  refine meets_page0 hp ht hstop (by decide) fun t ht => ?_
  refine meets_page0 hp ht hstop (by decide) fun t ht => ?_
  refine meets_page0 hp ht hstop (by decide) fun t ht => ?_
  refine meets_page0 hp ht hstop (by decide) fun t ht => ?_
  refine meets_page0 hp ht hstop (by decide) fun t ht => ?_
  refine meets_neWrite (by decide) hp.owned ht fun e fs he => ?_
  have hwrite : e.writeReg (neBnry.setWidth 16) neRxStart = { e with bnry := neRxStart } := by
    unfold Ne2000.writeReg
    rw [he.page1 hstop]
    rfl
  rw [hwrite]
  refine meets_page0 hbnry ⟨⟨rfl, he.holds⟩, he.cr, rfl⟩ hstop (by decide)
    fun t ht => ?_
  refine meets_page0 hbnry ht hstop (by decide) fun t ht => ?_
  have hprom := meets_neRemoteRead hbnry 0 32
    ((List.range 32).map fun j => d.mem (0 + BitVec.ofNat 16 j)) rfl ht.holds (by
      intro e fs he j b hb
      rw [List.getElem?_map] at hb
      obtain ⟨i, hi, rfl⟩ := Option.map_eq_some_iff.mp hb
      obtain ⟨_, hij⟩ := List.getElem?_eq_some_iff.mp hi
      rw [List.getElem_range] at hij
      rw [show e.mem = d.mem from he.2, hij])
  refine (hprom.mono fun prom t ht => ?_).bind
  obtain ⟨-, x, ht⟩ := ht
  dsimp only
  split
  · exact meets_ret (fun _ _ h => h.elim) nofun
  · exact (meets_initRing hbnry (fun _ _ h => h.1) _ rfl ht).mono fun _ _ h _ => h

end Init

/-- Without deliveries the dialog is the driver run on the device. -/
theorem exec_answer {α : Type} (p : Driver α) (d : Ne2000) (fs : List (List Byte)) :
    p.exec answer (d, fs) = ((p.exec Ne2000.access d).1, (p.exec Ne2000.access d).2, fs) := by
  induction p generalizing d with
  | ret a => rfl
  | ask a k ih => exact ih (Ne2000.access a d).1 (Ne2000.access a d).2

/-- After `net_init` has found the card, the ring is empty. -/
theorem netInit_ring {d : Ne2000} (h : (netInit.exec Ne2000.access d).1 = true) :
    RingHolds (netInit.exec Ne2000.access d).2 [] 0 := by
  have hready := (meets_netInit d).exec
  rw [exec_answer] at hready
  obtain ⟨hbnry, hcurr⟩ := hready h
  exact ⟨Nat.le_refl _, by simp, hbnry, hcurr, by decide, by simp⟩

/-! ## Runs -/

/-- What a call has returned, when `read` frames had been returned before it:
nothing, and then these were all the frames delivered before the call; or the
next frame, up to the size of the buffer. -/
def Answered (delivered : List (List Byte)) (read : Nat) (c : RecvRecord) : Prop :=
  (c.result = .nothing ∧ c.before = read) ∨
    ∃ f, delivered[read]? = some f ∧ read < c.after ∧
      c.result = .frame (BitVec.ofNat 16 (min c.cap.toNat f.length)) (f.take c.cap.toNat)

/-- The call under way will return what it should. -/
def OnCourse (s : NetState) : Option RecvCall → Prop
  | none => RingHolds s.dev s.delivered (returnedFrames s.done)
  | some c => returnedFrames s.done ≤ c.before ∧
      c.rest.Meets answer Receives (RecvOutcome c.cap c.before (returnedFrames s.done))
        (s.dev, s.delivered)

structure NetState.Fifo (s : NetState) : Prop where
  le : returnedFrames s.done ≤ s.delivered.length
  answered : ∀ i c, s.done[i]? = some c →
    Answered s.delivered (returnedFrames (s.done.take i)) c
  course : OnCourse s s.call

theorem Answered.deliver {delivered : List (List Byte)} {read : Nat} {c : RecvRecord}
    (h : Answered delivered read c) (f : List Byte) : Answered (delivered ++ [f]) read c := by
  rcases h with h | ⟨g, hg, hrest⟩
  · exact .inl h
  · exact .inr ⟨g, getElem?_snoc hg f, hrest⟩

section Advance

variable {s : NetState} {cap : BitVec 64} {before : Nat}

theorem step_return {r : Received} (hcall : s.call = some ⟨cap, before, .ret r⟩) :
    s.step .advance =
      some { s with call := none, done := s.done ++ [⟨cap, before, s.delivered.length, r⟩] } := by
  rw [NetState.step, hcall]

theorem step_access {a : Access} {k : a.Answer → Driver Received}
    (hcall : s.call = some ⟨cap, before, .ask a k⟩) :
    s.step .advance =
      some
        { s with
          dev := (Ne2000.access a s.dev).2
          call := some ⟨cap, before, k (Ne2000.access a s.dev).1⟩ } := by
  rw [NetState.step, hcall]

end Advance

namespace NetState.Fifo

variable {s t : NetState}

/-- A delivery, with a call under way or not. -/
theorem deliver (h : s.Fifo) {f : List Byte} (hlow : 60 ≤ f.length) (hhigh : f.length ≤ 1596)
    (hkeep : KeepsBoundary s.dev f) :
    Fifo { s with dev := s.dev.deliver f, delivered := s.delivered ++ [f] } := by
  refine ⟨Nat.le_trans h.le (by simp), fun i c hc => (h.answered i c hc).deliver f, ?_⟩
  have hcourse := h.course
  cases hcall : s.call with
  | none =>
    rw [hcall] at hcourse
    exact RingHolds.deliver hcourse ⟨hlow, hhigh⟩ hkeep.2
  | some c =>
    rw [hcall] at hcourse
    exact ⟨hcourse.1, hcourse.2.interfere ⟨f, hlow, hhigh, hkeep, rfl⟩⟩

/-- The beginning of a call. -/
theorem recv (h : s.Fifo) {cap : BitVec 64} (hcap : 64 ≤ cap) (hidle : s.call = none) :
    Fifo { s with call := some ⟨cap, s.delivered.length, netRecvFrame cap⟩ } := by
  have hcourse := h.course
  rw [hidle] at hcourse
  exact ⟨h.le, h.answered, h.le, meets_netRecvFrame hcap hcourse (Nat.le_refl _)⟩

/-- The end of a call: it returns what it should. -/
theorem finish (h : s.Fifo) {cap : BitVec 64} {before : Nat} {r : Received}
    (hcall : s.call = some ⟨cap, before, .ret r⟩) :
    Fifo { s with call := none, done := s.done ++ [⟨cap, before, s.delivered.length, r⟩] } := by
  have hcourse := h.course
  rw [hcall] at hcourse
  have hcases : (r = .nothing ∧ before ≤ returnedFrames s.done ∧
        RingHolds s.dev s.delivered (returnedFrames s.done)) ∨
      ∃ f, s.delivered[returnedFrames s.done]? = some f ∧
        r = .frame (BitVec.ofNat 16 (min cap.toNat f.length)) (f.take cap.toNat) ∧
        RingHolds s.dev s.delivered (returnedFrames s.done + 1) := hcourse.2.ret
  have hanswered : Answered s.delivered (returnedFrames s.done)
      ⟨cap, before, s.delivered.length, r⟩ := by
    rcases hcases with ⟨hr, hle, -⟩ | ⟨f, hf, hr, -⟩
    · exact .inl ⟨hr, Nat.le_antisymm hle hcourse.1⟩
    · exact .inr ⟨f, hf, (List.getElem?_eq_some_iff.mp hf).1, hr⟩
  have hring : RingHolds s.dev s.delivered
      (returnedFrames (s.done ++ [⟨cap, before, s.delivered.length, r⟩])) := by
    rcases hcases with ⟨rfl, -, hring⟩ | ⟨f, -, rfl, hring⟩
    · simpa [returnedFrames] using hring
    · simpa [returnedFrames] using hring
  refine ⟨hring.le, fun i c hc => ?_, hring⟩
  rcases Nat.lt_or_ge i s.done.length with hlt | hge
  · rw [List.getElem?_append_left hlt] at hc
    rw [List.take_append_of_le_length (Nat.le_of_lt hlt)]
    exact h.answered i c hc
  · obtain rfl : i = s.done.length := by
      have hlt := (List.getElem?_eq_some_iff.mp hc).1
      rw [List.length_append, List.length_singleton] at hlt
      omega
    rw [List.getElem?_append_right (Nat.le_refl _), Nat.sub_self] at hc
    obtain rfl := Option.some.inj hc
    rw [List.take_append_of_le_length (Nat.le_refl _), List.take_length]
    exact hanswered

/-- Every step keeps the order. -/
theorem step (h : s.Fifo) {e : NetEvent} (hok : s.Allowed KeepsBoundary e)
    (hstep : s.step e = some t) : t.Fifo := by
  cases e with
  | deliver f =>
    cases hstep
    exact h.deliver hok.1 hok.2.1 hok.2.2
  | recv cap =>
    cases hcall : s.call with
    | none =>
      rw [NetState.step, hcall] at hstep
      obtain rfl := Option.some.inj hstep
      exact h.recv hok hcall
    | some c =>
      rw [NetState.step, hcall] at hstep
      cases hstep
  | advance =>
    match hcall : s.call with
    | none =>
      rw [NetState.step, hcall] at hstep
      cases hstep
    | some ⟨cap, before, .ret r⟩ =>
      rw [step_return hcall] at hstep
      obtain rfl := Option.some.inj hstep
      exact h.finish hcall
    | some ⟨cap, before, .ask a k⟩ =>
      rw [step_access hcall] at hstep
      obtain rfl := Option.some.inj hstep
      have hcourse := h.course
      rw [hcall] at hcourse
      exact ⟨h.le, h.answered, hcourse.1, hcourse.2.ask⟩

end NetState.Fifo

/-- A call under way returns after finitely many accesses of its own. -/
theorem call_returns (s : NetState) :
    ∃ t, Run NetState.step (fun _ e => e = .advance) s t ∧ t.call = none := by
  cases hcall : s.call with
  | none => exact ⟨s, .refl, hcall⟩
  | some c =>
    obtain ⟨cap, before, rest⟩ := c
    induction rest generalizing s with
    | ret r =>
      exact ⟨_, Run.snoc .refl rfl (step_return hcall), rfl⟩
    | ask a k ih =>
      obtain ⟨t, hrun, ht⟩ := ih (Ne2000.access a s.dev).1
        { s with
          dev := (Ne2000.access a s.dev).2
          call := some ⟨cap, before, k (Ne2000.access a s.dev).1⟩ } rfl
      exact ⟨t, Run.trans (Run.snoc .refl rfl (step_access hcall)) hrun, ht⟩

/-- After `net_init`, with any interleaving of deliveries with the accesses of
`net_recv_frame`: each call returns the next delivered frame, or nothing, and
then no frame was waiting when it began. -/
theorem frames_returned_in_order {d : Ne2000} {s : NetState}
    (hinit : (netInit.exec Ne2000.access d).1 = true)
    (hrun : Run NetState.step (NetState.Allowed KeepsBoundary)
      { dev := (netInit.exec Ne2000.access d).2 } s) :
    returnedFrames s.done ≤ s.delivered.length ∧
      (∀ i c, s.done[i]? = some c → Answered s.delivered (returnedFrames (s.done.take i)) c) ∧
      ∃ t, Run NetState.step (fun _ e => e = .advance) s t ∧ t.call = none := by
  have hfifo : s.Fifo := by
    refine Run.invariant (P := NetState.Fifo) ?_ (fun t e u h hok hstep => h.step hok hstep) hrun
    exact ⟨Nat.le_refl _, nofun, netInit_ring hinit⟩
  exact ⟨hfifo.le, hfifo.answered, call_returns s⟩

/-- A card with an address in its PROM. -/
def someCard : Ne2000 := { mem := fun a => if a.toNat < 32 then 0x52 else 0 }

def cardState : NetState := { dev := (netInit.exec Ne2000.access someCard).2 }

theorem frames_returned_in_order_someCard :
    ∃ s, runList NetState.step (NetState.Allowed KeepsBoundary) cardState
        ([.deliver (List.replicate 61 7), .recv 64] ++ List.replicate 58 .advance) = some s ∧
      s.done.length = 1 ∧
      ∀ i c, s.done[i]? = some c → Answered s.delivered (returnedFrames (s.done.take i)) c := by
  have hdone : (runList NetState.step (NetState.Allowed KeepsBoundary) cardState
      ([.deliver (List.replicate 61 7), .recv 64] ++ List.replicate 58 .advance)).map
        (fun s => s.done.length) = some 1 := by
    decide +kernel
  obtain ⟨s, hrun, hlength⟩ := Option.map_eq_some_iff.mp hdone
  obtain ⟨-, hanswered, -⟩ := frames_returned_in_order (d := someCard) (by decide +kernel)
    (Run.ofList hrun)
  exact ⟨s, hrun, hlength, hanswered⟩

/-- Eight frames of seven pages and two of one fill the 58 pages; then a call. -/
def fillRing : List NetEvent :=
  List.replicate 8 (.deliver (List.replicate 1596 7)) ++
    List.replicate 2 (.deliver (List.replicate 60 7)) ++ .recv 64 :: List.replicate 5 .advance

/-- If the device may write page `BNRY`, it can fill the ring up to the page
behind `BNRY`, and the driver takes the full ring for an empty one. -/
theorem full_ring_returns_nothing :
    ∃ s, Run NetState.step (NetState.Allowed KeepsUnread) cardState s ∧
      s.delivered.length = 10 ∧ s.done.map (fun c => (c.before, c.result)) = [(10, .nothing)] := by
  have hdone : (runList NetState.step (NetState.Allowed KeepsUnread) cardState fillRing).map
      (fun s => (s.delivered.length, s.done.map fun c => (c.before, c.result))) =
        some (10, [(10, .nothing)]) := by
    decide +kernel
  obtain ⟨s, hrun, hs⟩ := Option.map_eq_some_iff.mp hdone
  obtain ⟨hdelivered, hresult⟩ := Prod.mk.inj hs
  exact ⟨s, Run.ofList hrun, hdelivered, hresult⟩

end OreOS.Kernel
