import Mathlib.Data.List.Forall2
import Lanes.Ring.Slots

/-!
# Where the sent packets come from

Every packet that the worker sends is the payload of one successful read into the slot it popped,
made before the pop, and no read is sent twice. Unlike the order of the packets this holds in every
run: a pop may skip a packet or meet a ring that a reset has emptied, but it never makes one up.

## The idea

`tx` and `rx` look at nothing but the length of the slot that `pop` gave them. So the invariant
`ProvInv` does not follow the cursors at all. It names, for each slot that could be sent, that is
for each slot with a length above 14 that nobody has used yet, the read `src i` it came from, and
says that this read is not among the reads already sent. Three things keep it:

* the release sets the length to `-1`, so that a slot that was used once is not sent again;
* `reset_ring` sets lengths to 0, and so only ever shortens what could be sent;
* a read goes into the slot of the producer, and the worker holds another one (`Owned.apart`).

`ProvInv.step` puts the actions together and `provenance_run` the steps.
-/

namespace Lanes

/-! ## The property

`ids` pairs every send with the position, in the history of the reads, of the read that it came
from. For egress the packet sent has the outer headers in front of that payload. -/

/-- The bytes of the outer headers in what the direction sends. -/
def outerLen : Dir → Nat
  | .egress => 34
  | .ingress => 0

/-- The packet `e` is the result of read number `id`. -/
def SentFrom (ses : Session) (reads : List ReadEvent) (id : Nat) (e : SendEvent) : Prop :=
  ∃ r, reads[id]? = some r ∧ r.slot = e.slot ∧ e.payload ses.dir = r.payload ses.dir ∧
    e.bytes.length = outerLen ses.dir + (r.payload ses.dir).length ∧ id < e.before

/-- The packets sent come one by one from distinct reads. -/
def Provenance (ses : Session) (s : Sys) : Prop :=
  ∃ ids : List Nat, ids.Nodup ∧ List.Forall₂ (SentFrom ses s.reads) ids s.sent

/-! ## The invariant

Between the read and the commit a slot of an ingress ring still has the outer headers in front and
its length counts them; `Filled` describes it there, `Carries` after the trim. -/

/-- Slot `i` holds the payload of the read `r`, ready to be sent. -/
structure Carries (ses : Session) (pool : Mem) (q : Q) (i : Nat) (r : ReadEvent) : Prop where
  slot : r.slot = i
  fits : (r.payload ses.dir).length + 34 ≤ ses.mtu
  len : (q.R i).len = (r.payload ses.dir).length
  bytes : pool.read (q.R i).data (r.payload ses.dir).length = r.payload ses.dir

/-- Slot `i` holds the bytes of the read `r` and is not committed yet, or `reset_ring` has zeroed
its length since. -/
structure Filled (ses : Session) (pool : Mem) (q : Q) (i : Nat) (r : ReadEvent) : Prop where
  slot : r.slot = i
  size : r.bytes.length ≤ ses.mtu ∧ (ses.dir = .egress → r.bytes.length + 34 ≤ ses.mtu)
  stored : (q.R i).len = 0 ∨ ((q.R i).len = r.bytes.length ∧
    pool.read (readAt ses.dir (q.R i)) r.bytes.length = r.bytes)

/-- `src i` is the read that filled slot `i`; `ids` are the reads already sent. -/
structure ProvInv (ses : Session) (src : Nat → Nat) (ids : List Nat) (s : Sys) : Prop where
  carried : ∀ i < s.q.rsz, s.prod.slot? ≠ some i → (∀ before, s.work ≠ .holding i before true) →
    14 < (s.q.R i).len →
      ∃ r, s.reads[src i]? = some r ∧ Carries ses s.pool s.q i r ∧ src i ∉ ids
  filled : ∀ i, s.prod = .holding i true →
    ∃ r, s.reads[src i]? = some r ∧ Filled ses s.pool s.q i r ∧ src i ∉ ids
  popped : ∀ i before, s.work = .holding i before false → 14 < (s.q.R i).len → src i < before
  sent : List.Forall₂ (SentFrom ses s.reads) ids s.sent
  nodup : ids.Nodup

/-! ## Frame lemmas

Neither description looks at the lock of its slot, nor at the cursors. -/

section Frame

variable {ses : Session} {pool pool' : Mem} {q q' : Q} {i : Nat} {r : ReadEvent}

theorem Carries.congr (h : Carries ses pool q i r) (hlen : (q'.R i).len = (q.R i).len)
    (hdata : (q'.R i).data = (q.R i).data)
    (hpool : ∀ n, n + 34 ≤ ses.mtu → pool'.read (q.R i).data n = pool.read (q.R i).data n) :
    Carries ses pool' q' i r where
  slot := h.slot
  fits := h.fits
  len := hlen.trans h.len
  bytes := by rw [hdata, hpool _ h.fits, h.bytes]

theorem Filled.congr (h : Filled ses pool q i r)
    (hlen : (q'.R i).len = 0 ∨ (q'.R i).len = (q.R i).len) (hplace : SamePlace (q.R i) (q'.R i)) :
    Filled ses pool q' i r where
  slot := h.slot
  size := h.size
  stored := by
    rcases hlen with hlen | hlen
    · exact Or.inl hlen
    · rw [hlen, hplace.readAt]
      exact h.stored

/-- Taking or releasing a slot lock changes no length. -/
theorem len_update_lock (k : Nat) (b : Bool) :
    (Function.update q.R k { q.R k with lock := b } i).len = (q.R i).len := by
  by_cases he : i = k
  · subst he
    simp
  · rw [Function.update_of_ne he]

theorem data_update_lock (k : Nat) (b : Bool) :
    (Function.update q.R k { q.R k with lock := b } i).data = (q.R i).data :=
  (samePlace_update (by exact ⟨rfl, rfl, rfl⟩) i).data

theorem SentFrom.append {reads : List ReadEvent} {id : Nat} {e : SendEvent}
    (h : SentFrom ses reads id e) (more : List ReadEvent) : SentFrom ses (reads ++ more) id e := by
  obtain ⟨r, hr, hrest⟩ := h
  refine ⟨r, ?_, hrest⟩
  rw [List.getElem?_append_left (List.getElem?_eq_some_iff.mp hr).1, hr]

/-- A read that was sent has been made. -/
theorem lt_of_sent {reads : List ReadEvent} {ids : List Nat} {sent : List SendEvent}
    (h : List.Forall₂ (SentFrom ses reads) ids sent) : ∀ id ∈ ids, id < reads.length := by
  induction h with
  | nil => simp
  | cons hhead _ ih =>
    intro id hid
    rcases List.mem_cons.mp hid with rfl | hmem
    · obtain ⟨r, hr, -⟩ := hhead
      exact (List.getElem?_eq_some_iff.mp hr).1
    · exact ih id hmem

end Frame

/-! ## One lemma for each step

Only a successful read changes `src`, at the slot it fills, and only a send changes `ids`. -/

section Steps

variable {ses : Session} {s : Sys} {src : Nat → Nat} {ids : List Nat} {i before : Nat}
  {filled : Bool}

/-- `push` takes a slot as it is, and nothing has been read into it yet. -/
theorem ProvInv.push (h : ProvInv ses src ids s) (hs : Sound ses s) (hp : s.prod = .idle) :
    ProvInv ses src ids s.pushStep := by
  rw [hs.pushStep_eq hp]
  split
  · refine
      { carried := fun j hj hprod hwork hlen => ?_
        filled := fun j hj => by
          rw [show s.prod = .holding j true from hj] at hp
          cases hp
        popped := h.popped
        sent := h.sent
        nodup := h.nodup }
    obtain ⟨r, hr, hcar, hnot⟩ := h.carried j hj hprod hwork hlen
    exact ⟨r, hr, hcar.congr rfl rfl fun _ _ => rfl, hnot⟩
  · refine
      { carried := fun j hj hprod hwork hlen => ?_
        filled := fun j hj => by cases hj
        popped := fun j before hj hlen => ?_
        sent := h.sent
        nodup := h.nodup }
    · rw [show ((pushAcquired s.q).R j).len = (s.q.R j).len from len_update_lock _ _] at hlen
      obtain ⟨r, hr, hcar, hnot⟩ := h.carried j hj (by rw [hp]; simp [Prod.slot?]) hwork hlen
      exact ⟨r, hr, hcar.congr (len_update_lock _ _) (data_update_lock _ _) fun _ _ => rfl, hnot⟩
    · rw [show ((pushAcquired s.q).R j).len = (s.q.R j).len from len_update_lock _ _] at hlen
      exact h.popped j before hj hlen

/-- A failed read leaves nothing to commit, and no other slot is touched. -/
theorem ProvInv.readNone (h : ProvInv ses src ids s) (hs : Sound ses s)
    (hp : s.prod = .holding i filled) : ProvInv ses src ids (s.readStep ses i none) := by
  have hpool : (readSlot ses s.pool (s.q.R i) none).1 = s.pool := by
    unfold readSlot
    cases ses.dir <;> rfl
  have hother : ∀ j, j ≠ i →
      ((s.readStep ses i none).q.R j) = s.q.R j := fun j hj => by
    simp [Sys.readStep, Q.setSlot, Function.update_of_ne hj]
  refine
    { carried := fun j hj hprod hwork hlen => ?_
      filled := fun j hj => by
        have hdone := (Prod.holding.inj hj).2
        cases readDone_isSome hdone
      popped := fun j before hj hlen => ?_
      sent := by simpa [Sys.readStep] using h.sent
      nodup := h.nodup }
  · have hne : j ≠ i := fun he => hprod (by rw [he]; rfl)
    rw [hother j hne] at hlen
    obtain ⟨r, hr, hcar, hnot⟩ := h.carried j hj (by rw [hp]; simpa [Prod.slot?] using Ne.symm hne)
      hwork hlen
    refine ⟨r, by simpa [Sys.readStep] using hr, ?_, hnot⟩
    refine hcar.congr (by rw [hother j hne]) (by rw [hother j hne]) fun n _ => ?_
    simp only [Sys.readStep, hpool]
  · have hne : j ≠ i := hs.slot_ne hp hj
    rw [hother j hne] at hlen
    exact h.popped j before hj hlen

/-- A successful read becomes the source of its slot. -/
theorem ProvInv.readSome (h : ProvInv ses src ids s) (hs : Sound ses s)
    (hp : s.prod = .holding i filled) (frame : List UInt8) :
    ProvInv ses (Function.update src i s.reads.length) ids (s.readStep ses i (some frame)) := by
  have hi : i < s.q.rsz := hs.owned.prod_lt i (by rw [hp]; rfl)
  have hplace := hs.layout i hi
  have hother : ∀ j, j ≠ i → ((s.readStep ses i (some frame)).q.R j) = s.q.R j := fun j hj => by
    simp [Sys.readStep, Q.setSlot, Function.update_of_ne hj]
  have hold : ∀ {k : Nat} {r : ReadEvent}, s.reads[k]? = some r →
      (s.readStep ses i (some frame)).reads[k]? = some r := fun {k r} hk => by
    simp only [Sys.readStep]
    rw [List.getElem?_append_left (List.getElem?_eq_some_iff.mp hk).1, hk]
  refine
    { carried := fun j hj hprod hwork hlen => ?_
      filled := fun j hj => ?_
      popped := fun j before hj hlen => ?_
      sent := h.sent.imp fun _ _ he => he.append _
      nodup := h.nodup }
  · -- a slot that was ready stays ready: the read stores elsewhere
    have hne : j ≠ i := fun he => hprod (by rw [he]; rfl)
    rw [hother j hne] at hlen
    obtain ⟨r, hr, hcar, hnot⟩ := h.carried j hj (by rw [hp]; simpa [Prod.slot?] using Ne.symm hne)
      hwork hlen
    rw [Function.update_of_ne hne]
    refine ⟨r, hold hr, ?_, hnot⟩
    refine hcar.congr (by rw [hother j hne]) (by rw [hother j hne]) fun n hn => ?_
    have hj' := hs.layout j hj
    rw [hj'.data, hj'.eth]
    exact readSlot_payload hplace (Ne.symm hne) _ hn
  · -- the slot read into: its source is the new read, which nobody sent yet
    obtain rfl : j = i := by
      simp only [Sys.readStep, Prod.holding.injEq] at hj
      exact hj.1.symm
    rw [Function.update_self]
    refine ⟨⟨j, readBytes ses frame⟩, by simp [Sys.readStep], ?_, fun hmem => ?_⟩
    · refine ⟨rfl, readBytes_length_le ses frame, Or.inr ⟨?_, ?_⟩⟩
      · simpa [Sys.readStep, Q.setSlot] using readSlot_len_some frame
      · have hstored : (readSlot ses s.pool (s.q.R j) (some frame)).1.read
            (readAt ses.dir (s.q.R j)) (readBytes ses frame).length = readBytes ses frame :=
          readSlot_stored hplace.ip hplace.data frame
        have hsame : SamePlace (s.q.R j) (readSlot ses s.pool (s.q.R j) (some frame)).2 :=
          readSlot_same (some frame)
        simpa [Sys.readStep, Q.setSlot, hsame.readAt] using hstored
    · exact absurd (lt_of_sent h.sent _ hmem) (Nat.lt_irrefl _)
  · have hne : j ≠ i := hs.slot_ne hp hj
    rw [hother j hne] at hlen
    rw [Function.update_of_ne hne]
    exact h.popped j before hj hlen

/-- The commit turns the bytes read into a payload ready to be sent. -/
theorem Filled.trim {pool : Mem} {q q' : Q} {r : ReadEvent} {mtu : Nat}
    (h : Filled ses pool q i r) (hplace : Placed mtu i (q.R i))
    (hlen : (q'.R i).len = (trimSlot ses.dir (q.R i)).len) (hdata : (q'.R i).data = (q.R i).data)
    (h14 : 14 < (q'.R i).len) : Carries ses pool q' i r := by
  obtain ⟨hslot, hsize, hstored⟩ := h
  cases hd : ses.dir with
  | egress =>
    simp only [hd, trimSlot, readAt] at hlen hstored
    simp only [hd, forall_const] at hsize
    rcases hstored with h0 | ⟨hl, hb⟩
    · omega
    · exact
        { slot := hslot
          fits := by simp only [hd, ReadEvent.payload]; omega
          len := by simp only [hd, ReadEvent.payload]; omega
          bytes := by simp only [hd, ReadEvent.payload, hdata, hb] }
  | ingress =>
    simp only [hd, trimSlot, rxIoTrim, ethIp4_eq, readAt] at hlen hstored
    rcases hstored with h0 | ⟨hl, hb⟩
    · omega
    · have hge : r.bytes.length = 34 + (r.bytes.length - 34) := by omega
      exact
        { slot := hslot
          fits := by simp only [hd, ReadEvent.payload, List.length_drop, ethIp4_eq]; omega
          len := by simp only [hd, ReadEvent.payload, List.length_drop, ethIp4_eq]; omega
          bytes := by
            simp only [hd, ReadEvent.payload, List.length_drop, ethIp4_eq, hdata, hplace.data]
            rw [← Mem.read_drop, ← hge, hb] }

/-- The slot committed holds the payload of its read from now on; the others stay. -/
theorem ProvInv.commit (h : ProvInv ses src ids s) (hs : Sound ses s)
    (hp : s.prod = .holding i true) : ProvInv ses src ids (s.commitStep ses i) := by
  have hi : i < s.q.rsz := hs.owned.prod_lt i (by rw [hp]; rfl)
  have hlen' : ∀ j, ((s.commitStep ses i).q.R j).len =
      ((s.q.setSlot i (trimSlot ses.dir (s.q.R i))).R j).len := fun j => by
    simp only [Sys.commitStep, commit_R]
    exact len_update_lock _ _
  have hdata' : ∀ j, ((s.commitStep ses i).q.R j).data = (s.q.R j).data := fun j => by
    simp only [Sys.commitStep, commit_R]
    rw [data_update_lock]
    exact (samePlace_update (trimSlot_same ses.dir) j).data
  have hother : ∀ j, j ≠ i → ((s.commitStep ses i).q.R j).len = (s.q.R j).len := fun j hj => by
    rw [hlen']
    simp [Q.setSlot, Function.update_of_ne hj]
  refine
    { carried := fun j hj hprod hwork h14 => ?_
      filled := fun j hj => by cases hj
      popped := fun j before hj h14 => ?_
      sent := h.sent
      nodup := h.nodup }
  · have hj' : j < s.q.rsz := by simpa [Sys.commitStep, commit_rsz, Q.setSlot] using hj
    by_cases he : j = i
    · -- the slot committed turns from filled to ready
      subst he
      obtain ⟨r, hr, hfill, hnot⟩ := h.filled j hp
      refine ⟨r, hr, hfill.trim (hs.layout j hi) ?_ (hdata' j) h14, hnot⟩
      rw [hlen']
      simp [Q.setSlot]
    · rw [hother j he] at h14
      obtain ⟨r, hr, hcar, hnot⟩ := h.carried j hj'
        (by rw [hp]; simpa [Prod.slot?] using Ne.symm he) hwork h14
      exact ⟨r, hr, hcar.congr (hother j he) (hdata' j) fun _ _ => rfl, hnot⟩
  · have hne : j ≠ i := hs.slot_ne hp hj
    rw [hother j hne] at h14
    exact h.popped j before hj h14

/-- `pop` hands over a slot as it is, or `reset_ring` leaves nothing that could be sent. -/
theorem ProvInv.pop (h : ProvInv ses src ids s) (hs : Sound ses s) (hw : s.work = .idle) :
    ProvInv ses src ids s.popStep := by
  have hidle : ∀ j before, s.work ≠ .holding j before true := fun j before he => by
    rw [hw] at he
    cases he
  rw [hs.popStep_eq hw]
  split
  · -- nothing to pop: a reset makes all lengths 0, and those are not sent
    have hlen := fun j (hj : j < s.q.rsz) => popReset_len (q := { s.q with sz := 0 }) j hj
    have hsame := fun j => popReset_same (q := { s.q with sz := 0 }) j
    refine
      { carried := fun j hj hprod _ h14 => ?_
        filled := fun j hj => ?_
        popped := fun j before hj => ?_
        sent := h.sent
        nodup := h.nodup }
    · have hj' : j < s.q.rsz := by simpa [popReset_rsz] using hj
      rcases hlen j hj' with h0 | hsm
      · exact absurd h14 (by simp only [h0]; omega)
      · simp only at h14
        rw [hsm] at h14
        obtain ⟨r, hr, hcar, hnot⟩ := h.carried j hj' hprod (hidle j) h14
        exact ⟨r, hr, hcar.congr hsm (hsame j).data fun _ _ => rfl, hnot⟩
    · obtain ⟨r, hr, hfill, hnot⟩ := h.filled j hj
      have hj' : j < s.q.rsz :=
        hs.owned.prod_lt j (by rw [show s.prod = .holding j true from hj]; rfl)
      exact ⟨r, hr, hfill.congr (hlen j hj') (hsame j), hnot⟩
    · rw [show s.work = .holding j before false from hj] at hw
      cases hw
  · rename_i hne
    have hlen : ∀ j, ((popTaken s.q).R j).len = (s.q.R j).len := fun j => len_update_lock _ _
    have hdata : ∀ j, ((popTaken s.q).R j).data = (s.q.R j).data := fun j => data_update_lock _ _
    have hown := hs.work_idle hw
    refine
      { carried := fun j hj hprod _ h14 => ?_
        filled := fun j hj => ?_
        popped := fun j before hj h14 => ?_
        sent := h.sent
        nodup := h.nodup }
    · simp only [hlen] at h14
      obtain ⟨r, hr, hcar, hnot⟩ := h.carried j hj hprod (hidle j) h14
      exact ⟨r, hr, hcar.congr (hlen j) (hdata j) fun _ _ => rfl, hnot⟩
    · obtain ⟨r, hr, hfill, hnot⟩ := h.filled j hj
      exact ⟨r, hr, hfill.congr (Or.inr (hlen j)) (samePlace_update (by exact ⟨rfl, rfl, rfl⟩) j),
        hnot⟩
    · -- the read behind the slot popped has been made
      simp only [Work.holding.injEq, and_true] at hj
      obtain ⟨rfl, rfl⟩ := hj
      simp only [hlen] at h14
      have hlt := hown.popTarget_lt hne
      have hprod : s.prod.slot? ≠ some (popTarget s.q) := fun hp => hown.popTarget_ne hne hp rfl
      obtain ⟨r, hr, -, -⟩ := h.carried (popTarget s.q) (by omega) hprod (hidle _) h14
      exact (List.getElem?_eq_some_iff.mp hr).1

/-- What the worker sends is the payload its slot carries. -/
theorem sendSlot_carries {pool : Mem} {q : Q} {r : ReadEvent} {mtu : Nat}
    (before : Nat) (h : Carries ses pool q i r) (hplace : Placed mtu i (q.R i))
    (h14 : 14 < (q.R i).len) :
    ∃ bs, sendSlot ses.dir pool (q.R i) = some bs ∧
      SendEvent.payload ses.dir ⟨i, bs, before⟩ = r.payload ses.dir ∧
      bs.length = outerLen ses.dir + (r.payload ses.dir).length := by
  have hlen := h.len
  have hbytes := h.bytes
  rw [hplace.data] at hbytes
  cases hd : ses.dir with
  | egress =>
    rw [hd] at hlen hbytes
    have hcount : ((q.R i).len + (ethHdrLen + ip4HdrLen : Nat)).toNat =
        34 + (r.payload .egress).length := by
      simp only [ethHdrLen_eq, ip4HdrLen_eq]
      omega
    refine ⟨pool.read (q.R i).ethernetFrame (34 + (r.payload .egress).length),
      by simp only [sendSlot, txSend, gt_iff_lt, h14, if_true, hcount], ?_, ?_⟩
    · simp only [SendEvent.payload, ethHdrLen_eq, ip4HdrLen_eq]
      rw [Mem.read_drop, hbytes]
    · simp [outerLen]
  | ingress =>
    rw [hd] at hlen hbytes
    have hcount : (q.R i).len.toNat = (r.payload .ingress).length := by omega
    refine ⟨pool.read ((q.R i).ethernetFrame + 34) (r.payload .ingress).length,
      by simp only [sendSlot, rxWrite, gt_iff_lt, h14, if_true, hcount, ethHdrLen_eq,
        ip4HdrLen_eq], ?_, ?_⟩
    · exact hbytes
    · simp [outerLen]

/-- A slot with a length of 14 or less is not sent. -/
theorem sendSlot_none {d : Dir} {pool : Mem} {r : RNG} (h14 : ¬ 14 < r.len) :
    sendSlot d pool r = none := by
  cases d <;> simp [sendSlot, txSend, rxWrite, h14]

/-- Distinct slots have distinct sources, since a read names its slot. -/
theorem ProvInv.src_ne {j k : Nat} {r r' : ReadEvent} (hr : s.reads[src j]? = some r)
    (hr' : s.reads[src k]? = some r') (hj : r.slot = j) (hk : r'.slot = k) (hne : j ≠ k) :
    src j ≠ src k := by
  intro he
  rw [he, hr'] at hr
  cases hr
  exact hne (hj ▸ hk ▸ rfl)

/-- A send uses up the source of its slot, which is the source of no other one. -/
theorem ProvInv.use (h : ProvInv ses src ids s) (hs : Sound ses s)
    (hw : s.work = .holding i before false) :
    ∃ ids', (ids' = ids ∨ (14 < (s.q.R i).len ∧ ids' = ids ++ [src i])) ∧
      ProvInv ses src ids' (s.useStep ses i before) := by
  have hown := hs.work_holding hw
  have hlt : i < s.q.rsz := by have := hown.work_lt i rfl; omega
  have hprod : s.prod.slot? ≠ some i := fun hp => hown.apart i hp rfl
  have hbusy : ∀ b, s.work ≠ .holding i b true := fun b he => by
    rw [hw] at he
    cases he
  by_cases h14 : 14 < (s.q.R i).len
  · -- sent: the read behind the slot is used up
    obtain ⟨r, hr, hcar, hnot⟩ := h.carried i hlt hprod hbusy h14
    obtain ⟨bs, hsend, hpay, hlen⟩ := sendSlot_carries before hcar (hs.layout i hlt) h14
    have hfrom : SentFrom ses s.reads (src i) ⟨i, bs, before⟩ :=
      ⟨r, hr, hcar.slot, hpay, hlen, h.popped i before hw h14⟩
    refine ⟨ids ++ [src i], Or.inr ⟨h14, rfl⟩, ?_⟩
    refine
      { carried := fun j hj hp' hwork h14' => ?_
        filled := fun j hj => ?_
        popped := fun j b hj => by cases hj
        sent := ?_
        nodup := ?_ }
    · have hne : j ≠ i := fun he => hwork before (by rw [he]; rfl)
      obtain ⟨r', hr', hcar', hnot'⟩ := h.carried j hj hp' (fun b he => hne (by
        rw [hw] at he; cases he)) h14'
      refine ⟨r', hr', hcar', ?_⟩
      have := ProvInv.src_ne hr' hr hcar'.slot hcar.slot hne
      simp [hnot', this]
    · obtain ⟨r', hr', hfill', hnot'⟩ := h.filled j hj
      have hne : j ≠ i := (hs.slot_ne hj hw).symm
      have := ProvInv.src_ne hr' hr hfill'.slot hcar.slot hne
      exact ⟨r', hr', hfill', by simp [hnot', this]⟩
    · simp only [Sys.useStep, hsend, Option.map_some, Option.toList_some]
      exact List.rel_append h.sent (List.Forall₂.cons hfrom .nil)
    · refine List.nodup_append.mpr ⟨h.nodup, by simp, fun a ha b hb => ?_⟩
      rw [List.mem_singleton] at hb
      intro he
      exact hnot (hb ▸ he ▸ ha)
  · -- too short to be sent
    refine ⟨ids, Or.inl rfl, ?_⟩
    refine
      { carried := fun j hj hp' hwork h14' => ?_
        filled := h.filled
        popped := fun j b hj => by cases hj
        sent := by simpa [Sys.useStep, sendSlot_none h14] using h.sent
        nodup := h.nodup }
    exact h.carried j hj hp' (fun b he => by rw [hw] at he; cases he) h14'

/-- The release makes the length `-1`, so that the slot holds nothing to send. -/
theorem ProvInv.release (h : ProvInv ses src ids s) (hs : Sound ses s)
    (hw : s.work = .holding i before true) :
    ProvInv ses src ids (s.releaseStep i) := by
  have hother : ∀ j, j ≠ i → (s.releaseStep i).q.R j = s.q.R j := fun j hj => by
    simp only [Sys.releaseStep, release_R, Function.update_of_ne hj]
  have hsame : ∀ j, SamePlace (s.q.R j) ((s.releaseStep i).q.R j) := fun j => by
    simp only [Sys.releaseStep, release_R]
    exact samePlace_update (by exact ⟨rfl, rfl, rfl⟩) j
  have hlen : ((s.releaseStep i).q.R i).len = -1 := by
    simp only [Sys.releaseStep, release_R, Function.update_self]
  refine
    { carried := fun j hj hprod _ h14 => ?_
      filled := fun j hj => ?_
      popped := fun j b hj => by cases hj
      sent := h.sent
      nodup := h.nodup }
  · have hne : j ≠ i := fun he => by rw [he, hlen] at h14; omega
    rw [hother j hne] at h14
    obtain ⟨r, hr, hcar, hnot⟩ := h.carried j hj hprod (fun b he => hne (by
      rw [hw] at he; cases he; rfl)) h14
    exact ⟨r, hr, hcar.congr (by rw [hother j hne]) (by rw [hother j hne]) fun _ _ => rfl, hnot⟩
  · obtain ⟨r, hr, hfill, hnot⟩ := h.filled j hj
    have hne : j ≠ i := (hs.slot_ne hj hw).symm
    exact ⟨r, hr, hfill.congr (Or.inr (by rw [hother j hne])) (hsame j), hnot⟩

theorem ProvInv.step {s' : Sys} {a : Action} (h : ProvInv ses src ids s) (hs : Sound ses s)
    (ha : step ses s a = some s') : ∃ src' ids', ProvInv ses src' ids' s' := by
  obtain ⟨-, hp, rfl⟩ | ⟨got, i, filled, -, hp, rfl⟩ | ⟨i, -, hp, rfl⟩ | ⟨-, hw, rfl⟩ |
    ⟨i, before, -, hw, rfl⟩ | ⟨i, before, -, hw, rfl⟩ := step_cases ha
  · exact ⟨_, _, h.push hs hp⟩
  · cases got with
    | none => exact ⟨_, _, h.readNone hs hp⟩
    | some frame => exact ⟨_, _, h.readSome hs hp frame⟩
  · exact ⟨_, _, h.commit hs hp⟩
  · exact ⟨_, _, h.pop hs hw⟩
  · obtain ⟨ids', -, h'⟩ := h.use hs hw
    exact ⟨_, _, h'⟩
  · exact ⟨_, _, h.release hs hw⟩

end Steps

/-! ## Every run

No slot of a fresh ring has a length, so nothing could be sent and any `src` will do. -/

theorem Sys.Start.provInv {ses : Session} {s : Sys} (h : s.Start ses) :
    ProvInv ses (fun _ => 0) [] s where
  carried i hi _ _ hlen := by
    rw [h.len i hi] at hlen
    omega
  filled i hi := by
    rw [h.prod] at hi
    cases hi
  popped i before hi := by
    rw [h.work] at hi
    cases hi
  sent := by
    rw [h.sent]
    exact .nil
  nodup := List.nodup_nil

/-- In every interleaving the calls stay inside the ring, and the packets sent come one by one,
unchanged, from distinct reads made before the pop. -/
theorem provenance_run {ses : Session} {s₀ s : Sys} {as : List Action} (h₀ : s₀.Start ses)
    (hrun : Run.exec (step ses) s₀ as = some s) : s.fault = none ∧ Provenance ses s := by
  have hinv : Sound ses s ∧ ∃ src ids, ProvInv ses src ids s := by
    refine Run.invariant (fun s => Sound ses s ∧ ∃ src ids, ProvInv ses src ids s)
      (fun s a s' hi ha => ?_) hrun ⟨h₀.sound, _, _, h₀.provInv⟩
    obtain ⟨hs, src, ids, hprov⟩ := hi
    exact ⟨hs.step ha, hprov.step hs ha⟩
  obtain ⟨hs, src, ids, hprov⟩ := hinv
  exact ⟨hs.safe, ids, hprov.nodup, hprov.sent⟩

/-- A frame of 16 bytes is read, sent and released, after a read that fails. -/
def oneFrame : List Action :=
  [.push, .read none, .read (some (List.replicate 16 7)), .commit, .pop, .use, .release]

theorem provenance_oneFrame :
    ∃ s, Run.exec (step smallSession) (startSys (emptyRing 3 60) fun _ => 0) oneFrame = some s ∧
      s.sent.length = 1 ∧ s.fault = none ∧ Provenance smallSession s := by
  have hrun : (Run.exec (step smallSession) (startSys (emptyRing 3 60) fun _ => 0) oneFrame).map
      (fun s => s.sent.length) = some 1 := by decide
  obtain ⟨s, hs, hlen⟩ := Option.map_eq_some_iff.mp hrun
  exact ⟨s, hs, hlen, provenance_run (startSys_start _ (by decide) (by decide)) hs⟩

end Lanes
