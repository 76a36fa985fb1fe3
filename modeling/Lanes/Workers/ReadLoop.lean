import Lanes.Ring.Slots

/-!
# The read loops of the IO threads

Between its push and its commit an IO thread polls and reads until the slot passes a test: in
`tx_io` that the length is not `-1`, in `rx_io` that the length is positive and the source address
is the peer's. A pass in which `poll` reports no input skips the read and tests what the slot
already holds.

Whether that does harm depends on the slot that `push` returned and on nothing else. Such a pass
leaves the test as it was, so if the test fails to begin with, the pass that ends the loop is one
with input, and what it read is what the commit publishes. If the test holds to begin with, a first
pass without input ends the loop with what an earlier frame left in the slot.
-/

namespace Lanes

/-! ## The loops

Both loops are one function of the session's direction. They run over the list of what their passes
meet, and the rest of that list comes back with the slot.
-/

/-- What one pass meets: `poll` without `POLLIN`, or with it, and then what the read finds. -/
inductive Poll where
  | quiet
  | readable (got : Option (List UInt8))
  deriving Repr, DecidableEq

/-- One pass of the loop of `tx_io`. Without input the length is the old one, and unless that is
`-1` the headers are filled for it. -/
def txIoPass (mtu : Nat) (pool : Mem) (r : RNG) : Poll → Mem × RNG
  | .quiet => if r.len = -1 then (pool, r) else (txHeader pool r, r)
  | .readable got => txIoRead mtu pool r got

/-- One pass of the loop of `rx_io`. -/
def rxIoPass (mtu : Nat) (pool : Mem) (r : RNG) : Poll → Mem × RNG
  | .quiet => (pool, r)
  | .readable got => rxIoRead mtu pool r got

def ioPass (ses : Session) : Mem → RNG → Poll → Mem × RNG :=
  match ses.dir with
  | .egress => txIoPass ses.mtu
  | .ingress => rxIoPass ses.mtu

/-- The loop, with the passes it did not get to; `none` while it goes on. -/
def readLoop (ses : Session) : Mem → RNG → List Poll → Option (Mem × RNG × List Poll)
  | _, _, [] => none
  | pool, r, p :: polls =>
    let (pool, r) := ioPass ses pool r p
    if readDone ses pool r then some (pool, r, polls) else readLoop ses pool r polls

/-- The length that the commit publishes when the last read found `frame`. -/
def frameLen (ses : Session) (frame : List UInt8) : Int :=
  match ses.dir with
  | .egress => (readBytes ses frame).length
  | .ingress => (readBytes ses frame).length - ethIp4

/-- If the loop ends, its last pass read a frame and the length committed is that of the frame. -/
def FreshCommit (ses : Session) (pool : Mem) (r : RNG) (polls : List Poll) : Prop :=
  ∀ pool' r' rest, readLoop ses pool r polls = some (pool', r', rest) →
    ∃ earlier frame, polls = earlier ++ .readable (some frame) :: rest ∧
      (trimSlot ses.dir r').len = frameLen ses frame

/-! ## One pass

A pass with input is the read of `Ring.Slots`; a pass without keeps the outcome of the test.
-/

section Pass

variable {ses : Session} {pool : Mem} {r : RNG}

theorem ioPass_readable (got : Option (List UInt8)) :
    ioPass ses pool r (.readable got) = readSlot ses pool r got := by
  unfold ioPass readSlot
  cases ses.dir <;> rfl

/-- A pass without input leaves the test as it was. -/
theorem readDone_quiet :
    readDone ses (ioPass ses pool r .quiet).1 (ioPass ses pool r .quiet).2 =
      readDone ses pool r := by
  unfold ioPass readDone
  cases ses.dir with
  | egress =>
    simp only [txIoPass]
    split <;> rfl
  | ingress => rfl

/-- While the test fails a pass without input changes nothing. -/
theorem ioPass_quiet (h : readDone ses pool r = false) :
    ioPass ses pool r .quiet = (pool, r) := by
  unfold ioPass
  unfold readDone at h
  cases hd : ses.dir with
  | egress =>
    have hlen : r.len = -1 := by simpa [hd] using h
    simp only [txIoPass, if_pos hlen]
  | ingress => rfl

theorem trimSlot_readSlot (frame : List UInt8) :
    (trimSlot ses.dir (readSlot ses pool r (some frame)).2).len = frameLen ses frame := by
  have hlen : (readSlot ses pool r (some frame)).2.len = (readBytes ses frame).length :=
    readSlot_len_some frame
  unfold trimSlot frameLen
  cases ses.dir with
  | egress => exact hlen
  | ingress => simp only [rxIoTrim, hlen]

theorem readLoop_cons (p : Poll) (polls : List Poll) :
    readLoop ses pool r (p :: polls) =
      if readDone ses (ioPass ses pool r p).1 (ioPass ses pool r p).2 then
        some ((ioPass ses pool r p).1, (ioPass ses pool r p).2, polls)
      else readLoop ses (ioPass ses pool r p).1 (ioPass ses pool r p).2 polls := rfl

end Pass

/-! ## The whole loop

By induction on the passes. Only the first pass can meet the slot as `push` returned it: a loop that
goes on behind it goes on with a slot that the test rejects.
-/

section Loop

variable {ses : Session} {pool : Mem} {r : RNG}

/-- A later pass puts an earlier one in front. -/
theorem FreshCommit.cons {p : Poll} {polls : List Poll}
    (hgo : readDone ses (ioPass ses pool r p).1 (ioPass ses pool r p).2 = false)
    (h : FreshCommit ses (ioPass ses pool r p).1 (ioPass ses pool r p).2 polls) :
    FreshCommit ses pool r (p :: polls) := by
  intro pool' r' rest hleave
  rw [readLoop_cons, if_neg (by rw [hgo]; exact Bool.false_ne_true)] at hleave
  obtain ⟨earlier, frame, hpolls, hlen⟩ := h pool' r' rest hleave
  exact ⟨p :: earlier, frame, by rw [hpolls, List.cons_append], hlen⟩

/-- A first pass with input either ends the loop with the frame it read or leaves the slot in a
state that the test rejects. -/
theorem freshCommit_readable {got : Option (List UInt8)} {polls : List Poll}
    (h : readDone ses (readSlot ses pool r got).1 (readSlot ses pool r got).2 = false →
      FreshCommit ses (readSlot ses pool r got).1 (readSlot ses pool r got).2 polls) :
    FreshCommit ses pool r (.readable got :: polls) := by
  cases hdone : readDone ses (readSlot ses pool r got).1 (readSlot ses pool r got).2 with
  | false =>
    refine FreshCommit.cons ?_ ?_
    · rwa [ioPass_readable]
    · rw [ioPass_readable]
      exact h hdone
  | true =>
    intro pool' r' rest hleave
    rw [readLoop_cons, ioPass_readable, if_pos hdone] at hleave
    obtain ⟨frame, rfl⟩ := Option.isSome_iff_exists.mp (readDone_isSome hdone)
    cases hleave
    exact ⟨[], frame, rfl, trimSlot_readSlot frame⟩

/-- A slot that the test rejects is filled before it is committed. -/
theorem freshCommit_of_not_ready (polls : List Poll) (h : readDone ses pool r = false) :
    FreshCommit ses pool r polls := by
  induction polls generalizing pool r with
  | nil =>
    intro pool' r' rest hleave
    cases hleave
  | cons p polls ih =>
    cases p with
    | quiet =>
      refine FreshCommit.cons ?_ ?_
      · rw [readDone_quiet, h]
      · rw [ioPass_quiet h]
        exact ih h
    | readable got => exact freshCommit_readable ih

/-- A slot that the test accepts is committed by a pass that read nothing. -/
theorem not_freshCommit_quiet (polls : List Poll) (h : readDone ses pool r = true) :
    ¬ FreshCommit ses pool r (.quiet :: polls) := by
  intro hfresh
  have hdone : readDone ses (ioPass ses pool r .quiet).1 (ioPass ses pool r .quiet).2 = true := by
    rw [readDone_quiet, h]
  obtain ⟨earlier, frame, hpolls, -⟩ :=
    hfresh _ _ polls (by rw [readLoop_cons, if_pos hdone])
  -- nothing stands before the pass that ended the loop, and that pass was quiet
  have hlen := congrArg List.length hpolls
  simp only [List.length_cons, List.length_append] at hlen
  have hearlier : earlier = [] := List.eq_nil_of_length_eq_zero (by omega)
  rw [hearlier] at hpolls
  cases hpolls

end Loop

/-- **Fresh data.** What the loop commits is freshly read unless its first pass meets no input and
the slot, as `push` returned it, passes the test already. -/
theorem freshCommit_iff (ses : Session) (pool : Mem) (r : RNG) (polls : List Poll) :
    FreshCommit ses pool r polls ↔ (polls.head? = some .quiet → readDone ses pool r = false) := by
  cases polls with
  | nil =>
    refine iff_of_true (fun pool' r' rest hleave => ?_) (fun hquiet => ?_)
    · cases hleave
    · cases hquiet
  | cons p polls =>
    cases p with
    | quiet =>
      constructor
      · intro h _
        by_contra hready
        exact not_freshCommit_quiet polls (by simpa using hready) h
      · intro h
        exact freshCommit_of_not_ready _ (h rfl)
    | readable got =>
      refine iff_of_true (freshCommit_readable (freshCommit_of_not_ready polls)) fun hquiet => ?_
      cases hquiet

/-- A slot that `init_ring_buffer` or `reset_ring` left with length 0 is committed by `tx_io` after
a poll without input. -/
theorem freshCommit_fails :
    ¬ ∀ (ses : Session) (pool : Mem) (r : RNG) (polls : List Poll),
      FreshCommit ses pool r polls := fun hall =>
  not_freshCommit_quiet [] (by decide) (hall smallSession (fun _ => 0) zeroSlot [.quiet])

end Lanes
