import Mathlib.Tactic.ByContra
import Lanes.Lib.Run
import Lanes.Ring.Init
import Lanes.Packet.Transfer

/-!
# The ingress filter

`rx_io` reads frames into a slot until one passes its source check, and commits the slot; `rx` takes
the slots in order and writes what follows the outer headers to the tunnel. The check reads bytes 26
to 29 of the slot whatever the length of the frame, so a short frame is judged by what an earlier
one left there. It does no harm because `rx` writes nothing of a slot whose length, less the outer
headers, is 14 or less.

The specification, `delivered`, is a filter and a map on the sequence of frames read, and mentions
no slot. The model hands `rx_io` slots with any contents and reads any frames into them.
`Ingress.output_step` is the step lemma: what is written, with what will be written of the committed
slots, grows by what the frame of the step is to deliver. `ingressFilter` is the run.
-/

namespace Lanes

/-! ## Slots

The functions of `Packet.Transfer` on a slot whose IP header is where `init_ring_buffer` put it,
behind the Ethernet header.
-/

/-- A slot and the memory its frame lives in. -/
structure Slot where
  pool : Mem
  r : RNG
  ip : r.ipheader = r.ethernetFrame + ethHdrLen

namespace Slot

/-- A pass of the read loop of `rx_io`. -/
def read (s : Slot) (mtu : Nat) (got : Option (List UInt8)) : Slot where
  pool := (rxIoRead mtu s.pool s.r got).1
  r := (rxIoRead mtu s.pool s.r got).2
  ip := by
    cases got with
    | none => exact s.ip
    | some frame => exact s.ip

/-- The check at the end of the pass. -/
def accepts (s : Slot) (peerIp : UInt32) : Bool := rxIoAccepts s.pool s.r peerIp

/-- `data->len -= ETHIP4`. -/
def trim (s : Slot) : Slot where
  pool := s.pool
  r := rxIoTrim s.r
  ip := s.ip

/-- What `rx` writes of the slot. -/
def write (s : Slot) : Option (List UInt8) := rxWrite s.pool s.r

end Slot

/-! ## Steps

The ring between the two threads is a queue here. That the ring is one, and which slots `push` hands
over, is the subject of the modules on the ring.
-/

/-- The slot `rx_io` holds, the slots committed and not popped, and the packets `rx` wrote. -/
structure Ingress where
  held : Option Slot
  fifo : List Slot
  written : List (List UInt8)

inductive IngressAction where
  /-- `push` hands over a slot, with any contents. -/
  | take (s : Slot)
  /-- The frame that was waiting, or `none` when the read fails. -/
  | read (got : Option (List UInt8))
  /-- `rx` pops a slot, writes it and releases it. -/
  | deliver

/-- `rx_io` goes on with the slot it holds until the check passes, and then commits it. -/
def Ingress.readStep (mtu : Nat) (peerIp : UInt32) (g : Ingress) (s : Slot)
    (got : Option (List UInt8)) : Ingress :=
  let s := s.read mtu got
  if s.accepts peerIp then { g with held := none, fifo := g.fifo ++ [s.trim] }
  else { g with held := some s }

def ingressStep (mtu : Nat) (peerIp : UInt32) (g : Ingress) : IngressAction → Option Ingress
  | .take s => if g.held.isNone then some { g with held := some s } else none
  | .read got => g.held.map fun s => g.readStep mtu peerIp s got
  | .deliver =>
    match g.fifo with
    | [] => none
    | s :: fifo => some { g with fifo := fifo, written := g.written ++ s.write.toList }

def ingressStart : Ingress where
  held := none
  fifo := []
  written := []

/-- The frame that an action reads, as far as the count of the call goes. -/
def IngressAction.frame (mtu : Nat) : IngressAction → List (List UInt8)
  | .read got => (got.map (limitedRead mtu)).toList
  | .take _ | .deliver => []

/-- The frames that the reads of a run got, in order. -/
def framesRead (mtu : Nat) (as : List IngressAction) : List (List UInt8) :=
  as.flatMap (IngressAction.frame mtu)

/-! ## The filter

Frames of 30 to 48 bytes pass or fail the check by their own address and are not written; shorter
ones may pass by a stale one and are not written either. From 49 bytes on the check decides.
-/

/-- The frame's own bytes 26 to 29 are the peer's address. -/
def FromPeer (peerIp : UInt32) (frame : List UInt8) : Prop :=
  (frame.drop 26).take 4 = le32 peerIp

instance (peerIp : UInt32) (frame : List UInt8) : Decidable (FromPeer peerIp frame) :=
  inferInstanceAs (Decidable (_ = _))

/-- What is to reach the tunnel of a sequence of frames. -/
def delivered (peerIp : UInt32) (frames : List (List UInt8)) : List (List UInt8) :=
  (frames.filter fun f => 49 ≤ f.length ∧ FromPeer peerIp f).map (List.drop 34)

theorem delivered_append (peerIp : UInt32) (fs gs : List (List UInt8)) :
    delivered peerIp (fs ++ gs) = delivered peerIp fs ++ delivered peerIp gs := by
  simp [delivered]

theorem delivered_flatMap (peerIp : UInt32) (as : List IngressAction)
    (f : IngressAction → List (List UInt8)) :
    delivered peerIp (as.flatMap f) = as.flatMap fun a => delivered peerIp (f a) := by
  induction as with
  | nil => rfl
  | cons a as ih => rw [List.flatMap_cons, List.flatMap_cons, delivered_append, ih]

/-- Frames from elsewhere make no difference. -/
theorem delivered_filter (peerIp : UInt32) (frames : List (List UInt8)) :
    delivered peerIp (frames.filter fun f => FromPeer peerIp f) = delivered peerIp frames := by
  unfold delivered
  rw [List.filter_filter]
  refine congrArg (List.map (List.drop 34)) (List.filter_congr fun f _ => ?_)
  simp only [Bool.decide_and, Bool.and_assoc, Bool.and_self]

section Steps

variable {mtu : Nat} {peerIp : UInt32} {g g' : Ingress} {s : Slot}

/-- The check looks at the frame's own bytes when it is long enough to have them. -/
theorem Slot.accepts_read {frame : List UInt8} (hlen : 30 ≤ (limitedRead mtu frame).length) :
    (s.read mtu (some frame)).accepts peerIp = true ↔ FromPeer peerIp (limitedRead mtu frame) := by
  have hpos : ¬ ((limitedRead mtu frame).length : Int) < 1 := by omega
  have hload : (s.pool.write s.r.ethernetFrame (limitedRead mtu frame)).load32
      (s.r.ipheader + 12) = peerIp ↔ FromPeer peerIp (limitedRead mtu frame) := by
    have hip := s.ip
    rw [ethHdrLen_eq] at hip
    rw [Mem.load32_eq_iff, hip, show s.r.ethernetFrame + 14 + 12 = s.r.ethernetFrame + 26 by omega,
      Mem.read_write_inside (by omega)]
    exact Iff.rfl
  have haccepts : (s.read mtu (some frame)).accepts peerIp =
      if ((limitedRead mtu frame).length : Int) < 1 then false
      else if (s.pool.write s.r.ethernetFrame (limitedRead mtu frame)).load32
        (s.r.ipheader + 12) ≠ peerIp then false
      else true := rfl
  rw [← hload, haccepts, if_neg hpos]
  split
  · rename_i hne
    exact iff_of_false Bool.false_ne_true hne
  · rename_i heq
    exact iff_of_true rfl (not_not.mp heq)

/-- `rx` writes a committed slot if the frame in it has at least 49 bytes. -/
theorem Slot.write_read (frame : List UInt8) :
    (s.read mtu (some frame)).trim.write =
      if 49 ≤ (limitedRead mtu frame).length then some ((limitedRead mtu frame).drop 34)
      else none := by
  obtain ⟨bytes, hbytes⟩ : ∃ bytes, bytes = limitedRead mtu frame := ⟨_, rfl⟩
  rw [← hbytes]
  have hsend : (s.read mtu (some frame)).trim.write =
      if (bytes.length : Int) - (34 : Nat) > 14 then
        some ((s.pool.write s.r.ethernetFrame bytes).read (s.r.ethernetFrame + 34)
          ((bytes.length : Int) - (34 : Nat)).toNat)
      else none := by
    rw [hbytes]
    rfl
  rw [hsend]
  -- 34 bytes of outer headers, and `rx` wants more than 14 behind them
  by_cases hlen : 49 ≤ bytes.length
  · have hgt : (bytes.length : Int) - (34 : Nat) > 14 := by omega
    have hsub : ((bytes.length : Int) - (34 : Nat)).toNat = bytes.length - 34 := by omega
    rw [if_pos hgt, if_pos hlen, hsub, Mem.read_write_inside (by omega)]
    exact congrArg some (List.take_of_length_le (by simp))
  · have hle : ¬ (bytes.length : Int) - (34 : Nat) > 14 := by omega
    rw [if_neg hle, if_neg hlen]

/-- A failed read does not pass the check. -/
theorem Slot.accepts_read_none : (s.read mtu none).accepts peerIp = false := by
  simp [Slot.accepts, Slot.read, rxIoAccepts, rxIoRead]

theorem Slot.filterMap_write_cons (s : Slot) (fifo : List Slot) :
    (s :: fifo).filterMap Slot.write = s.write.toList ++ fifo.filterMap Slot.write := by
  cases h : s.write <;> simp [h]

/-- The packets written and those that will be written of the slots in the queue. -/
def Ingress.output (g : Ingress) : List (List UInt8) := g.written ++ g.fifo.filterMap Slot.write

/-- A pass of the read loop adds what its frame is to deliver. -/
theorem Ingress.output_readStep (g : Ingress) (got : Option (List UInt8)) :
    (g.readStep mtu peerIp s got).output =
      g.output ++ delivered peerIp (IngressAction.frame mtu (.read got)) := by
  unfold Ingress.readStep
  cases got with
  | none =>
    rw [if_neg (by rw [Slot.accepts_read_none]; exact Bool.false_ne_true)]
    exact (List.append_nil _).symm
  | some frame =>
    obtain ⟨bytes, hbytes⟩ : ∃ bytes, bytes = limitedRead mtu frame := ⟨_, rfl⟩
    have hwrite : (s.read mtu (some frame)).trim.write =
        if 49 ≤ (limitedRead mtu frame).length then some ((limitedRead mtu frame).drop 34)
        else none := Slot.write_read frame
    have hcheck : 30 ≤ (limitedRead mtu frame).length →
        ((s.read mtu (some frame)).accepts peerIp = true ↔
          FromPeer peerIp (limitedRead mtu frame)) := Slot.accepts_read
    have hframe : IngressAction.frame mtu (.read (some frame)) = [bytes] := by rw [hbytes]; rfl
    rw [← hbytes] at hwrite hcheck
    -- what this frame adds to the output is what it adds to the specification
    have hone : (if (s.read mtu (some frame)).accepts peerIp then
        (s.read mtu (some frame)).trim.write.toList else []) = delivered peerIp [bytes] := by
      by_cases hlen : 49 ≤ bytes.length
      · by_cases hsrc : FromPeer peerIp bytes
        · rw [if_pos ((hcheck (by omega)).mpr hsrc), hwrite, if_pos hlen]
          simp [delivered, hlen, hsrc]
        · rw [if_neg fun ha => hsrc ((hcheck (by omega)).mp ha)]
          simp [delivered, hsrc]
      · rw [hwrite, if_neg hlen]
        simp [delivered, hlen]
    rw [hframe, ← hone]
    by_cases haccept : (s.read mtu (some frame)).accepts peerIp = true
    · rw [if_pos haccept, if_pos haccept]
      show g.written ++ (g.fifo ++ [(s.read mtu (some frame)).trim]).filterMap Slot.write =
        g.output ++ (s.read mtu (some frame)).trim.write.toList
      rw [List.filterMap_append, Slot.filterMap_write_cons, List.filterMap_nil, List.append_nil,
        ← List.append_assoc, Ingress.output]
    · rw [if_neg haccept, if_neg haccept]
      exact (List.append_nil _).symm

/-- A step adds to the output what the frame it reads is to deliver; delivering a slot moves a
packet from the queue to the tunnel. -/
theorem Ingress.output_step {a : IngressAction} (ha : ingressStep mtu peerIp g a = some g') :
    g'.output = g.output ++ delivered peerIp (a.frame mtu) := by
  cases a with
  | take s =>
    simp only [ingressStep] at ha
    split at ha
    · cases ha
      exact (List.append_nil _).symm
    · cases ha
  | read got =>
    obtain ⟨s, -, rfl⟩ := Option.map_eq_some_iff.mp ha
    exact g.output_readStep got
  | deliver =>
    simp only [ingressStep] at ha
    split at ha
    · cases ha
    · rename_i s fifo hfifo
      cases ha
      show (g.written ++ s.write.toList) ++ fifo.filterMap Slot.write = g.output ++ []
      rw [Ingress.output, hfifo, List.append_nil, List.append_assoc, Slot.filterMap_write_cons]

/-- What a run puts out is decided by the frames it reads. -/
theorem Ingress.output_exec {as : List IngressAction}
    (hrun : Run.exec (ingressStep mtu peerIp) ingressStart as = some g) :
    g.output = delivered peerIp (framesRead mtu as) := by
  rw [framesRead, delivered_flatMap]
  exact Run.output_exec Ingress.output (fun a => delivered peerIp (a.frame mtu))
    (fun _ _ _ ha => Ingress.output_step ha) hrun

/-- Whatever `rx_io` reads, and whatever the slots hold that it gets for it, there is a run that
reads it and delivers every slot. -/
theorem Ingress.exists_run (hfifo : g.fifo = []) (slot : Slot)
    (gots : List (Option (List UInt8))) :
    ∃ as g', Run.exec (ingressStep mtu peerIp) g as = some g' ∧ g'.fifo = [] ∧
      framesRead mtu as = framesRead mtu (gots.map .read) := by
  induction gots generalizing g with
  | nil => exact ⟨[], g, rfl, hfifo, rfl⟩
  | cons got gots ih =>
    -- a slot to read into, the read, and the delivery if the frame was accepted
    obtain ⟨as, m, s, hm, hempty, hheld, hnone⟩ : ∃ as m s,
        Run.exec (ingressStep mtu peerIp) g as = some m ∧ m.fifo = [] ∧ m.held = some s ∧
          framesRead mtu as = [] := by
      cases hheld : g.held with
      | some s => exact ⟨[], g, s, rfl, hfifo, hheld, rfl⟩
      | none =>
        refine ⟨[.take slot], { g with held := some slot }, slot, ?_, hfifo, rfl, rfl⟩
        simp [Run.exec, ingressStep, hheld]
    have hread : ingressStep mtu peerIp m (.read got) = some (m.readStep mtu peerIp s got) := by
      simp [ingressStep, hheld]
    obtain ⟨bs, m', hm', hempty', hnone'⟩ : ∃ bs m',
        Run.exec (ingressStep mtu peerIp) (m.readStep mtu peerIp s got) bs = some m' ∧
          m'.fifo = [] ∧ framesRead mtu bs = [] := by
      unfold Ingress.readStep
      by_cases haccept : (s.read mtu got).accepts peerIp = true
      · refine ⟨[.deliver], { m with
          held := none
          written := m.written ++ (s.read mtu got).trim.write.toList }, ?_, hempty, rfl⟩
        simp [Run.exec, ingressStep, haccept, hempty]
      · refine ⟨[], { m with held := some (s.read mtu got) }, ?_, hempty, rfl⟩
        simp [Run.exec, haccept]
    obtain ⟨cs, g', hg', hlast, hframes⟩ := ih hempty'
    refine ⟨as ++ .read got :: (bs ++ cs), g', ?_, hlast, ?_⟩
    · simp [Run.exec_append, Run.exec, hm, hread, hm', hg']
    · simp only [framesRead, List.flatMap_append, List.flatMap_cons, List.map_cons] at *
      rw [hnone, hnone', hframes]
      rfl

end Steps

/-- **Ingress filter.** At any time the packets written, with those still to be written of the slots
in the queue, are the payloads of the long enough ones from the peer among the frames read, in
order. So two runs that read the same frames from the peer have written the same once their queues
are empty. -/
theorem ingressFilter {mtu : Nat} {peerIp : UInt32} {as : List IngressAction} {g : Ingress}
    (hrun : Run.exec (ingressStep mtu peerIp) ingressStart as = some g) :
    g.written ++ g.fifo.filterMap Slot.write = delivered peerIp (framesRead mtu as) ∧
      ∀ as' g', Run.exec (ingressStep mtu peerIp) ingressStart as' = some g' →
        ((framesRead mtu as').filter fun f => FromPeer peerIp f) =
          ((framesRead mtu as).filter fun f => FromPeer peerIp f) →
        g.fifo = [] → g'.fifo = [] → g'.written = g.written := by
  refine ⟨Ingress.output_exec hrun, fun as' g' hrun' hsame hempty hempty' => ?_⟩
  have h := Ingress.output_exec hrun
  have h' := Ingress.output_exec hrun'
  rw [Ingress.output, hempty, List.filterMap_nil, List.append_nil] at h
  rw [Ingress.output, hempty', List.filterMap_nil, List.append_nil] at h'
  rw [h, h', ← delivered_filter peerIp (framesRead mtu as'), hsame, delivered_filter]

/-- The frame of the peer at 4.3.2.1 that is just long enough. -/
def peerFrame : List UInt8 :=
  List.replicate 26 0 ++ [1, 2, 3, 4] ++ List.replicate 19 7

/-- A slot with any frame left in it. -/
def staleSlot (bytes : List UInt8) : Slot where
  pool := Mem.write (fun _ => 255) 0 bytes
  r := { zeroSlot with len := 40, ipheader := 14, data := 34 }
  ip := rfl

/-- A short frame of another source takes over the address that the peer's frame left in the slot;
it is committed, and `rx` writes nothing of it. The peer's frame read next is written. -/
theorem ingressFilter_stale :
    ∃ g, Run.exec (ingressStep 60 0x04030201) ingressStart
        [.take (staleSlot peerFrame), .read (some [9]), .take (staleSlot []), .read none,
          .read (some []), .read (some peerFrame), .deliver, .deliver] = some g ∧
      g.written = [List.replicate 15 7] ∧ g.fifo.filterMap Slot.write = [] ∧
      g.written ++ g.fifo.filterMap Slot.write = delivered 0x04030201 [[9], [], peerFrame] := by
  obtain ⟨g, hg, hwritten⟩ := Option.map_eq_some_iff.mp
    (show (Run.exec (ingressStep 60 0x04030201) ingressStart
      [.take (staleSlot peerFrame), .read (some [9]), .take (staleSlot []), .read none,
        .read (some []), .read (some peerFrame), .deliver, .deliver]).map
        (fun g => (g.written, g.fifo.filterMap Slot.write)) =
          some ([List.replicate 15 7], []) by decide +kernel)
  exact ⟨g, hg, congrArg Prod.fst hwritten, congrArg Prod.snd hwritten, (ingressFilter hg).1⟩

end Lanes
