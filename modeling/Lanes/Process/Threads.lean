import Lanes.Lane.Deployment
import Lanes.Process.Registered

/-!
# The threads of a configuration

Which threads the set-up of a host starts, from its configuration file: a worker for each queue and
one thread for IO for each tunnel, and threads for IO alone for a map. With the life of the process
this gives the list and the counters of the threads in every run.

Three models meet here. The file is read by the loader, the peers are set up by the two passes
(`Host.Ready.boots`), and what the set-up asks `new_thread` for becomes the `World` of the process
(`Net.world`). A host is ready in the sense of `Host.Ready`: its file has at most one peer of each
direction, each with an interface and a tunnel, all hosts resolve, all interfaces are up and every
call of the set-up succeeds.
-/

namespace Lanes

/-! ## Jobs

The set-up names its threads by what they work on, `new_thread` counts them by their job: `lbr` for
a worker, `io` for every other one. -/

/-- The job that a thread is started with. -/
def Thread.job : Thread → Job
  | .worker .. => .lbr
  | .io .. | .mapIn | .map => .io

/-- The jobs of the threads for a peer of the list. -/
def Listed.jobs (a : Listed) : List Job :=
  if a.peer.dir?.isSome then List.replicate a.peer.threads.toNat .lbr ++ [.io]
  else if a.peer.direction = dirMap then .io :: List.replicate a.peer.threads.toNat .io
  else []

/-- The jobs of the threads for a peer of the configuration file. -/
def PeerConf.jobs (c : PeerConf) : List Job :=
  match c.role with
  | .egress | .ingress => List.replicate c.threads .lbr ++ [.io]
  | .map => .io :: List.replicate c.threads .io

section SetUp

variable {net net' : Net} {a : Listed} {as : List Listed} {h : Host} {c : PeerConf} {d : Dir}

theorem sessionThreads_jobs (d : Dir) (e : Nat) (x : Xq) :
    (sessionThreads d e x).map Thread.job = List.replicate x.q.length .lbr ++ [.io] := by
  simp [sessionThreads, Thread.job]

/-- A peer that is fit gets the threads of its direction. -/
theorem enumerateStep_jobs (hfit : a.Fit) (h : enumerateStep throughGlobal net a = .ok net') :
    net'.threads.map Thread.job = net.threads.map Thread.job ++ a.jobs := by
  cases hdir : a.peer.dir? with
  | none =>
    have hother : a.peer.direction ≠ dirOut ∧ a.peer.direction ≠ dirIn := by
      unfold PeerCtx.dir? at hdir
      split at hdir
      · cases hdir
      · rename_i hout
        split at hdir
        · cases hdir
        · exact ⟨hout, by assumption⟩
    rw [enumerateStep, if_neg hother.1, if_neg hother.2] at h
    rw [Listed.jobs, hdir]
    split at h
    · rename_i hmap
      cases h
      simp [hmap, Thread.job]
    · rename_i hmap
      cases h
      simp [hmap]
  | some d =>
    have hsome : a.peer.dir? ≠ none := by simp [hdir]
    have htun := hfit.tunnel hsome
    rw [enumerateStep_of_dir throughGlobal net hdir] at h
    cases hs : session throughGlobal d d.tunnel net a.peer a.calls with
    | error stop =>
      rw [hs] at h
      cases h
    | ok net₁ =>
      rw [hs] at h
      cases h
      obtain ⟨e, xs, af, old, x, started, -, -, -, -, hset, rfl⟩ := session_cases hs
      rw [Listed.jobs, hdir, if_pos (Option.isSome_some)]
      show (net.threads ++ started).map Thread.job = _
      rw [List.map_append]
      cases setUp_made hset with
      | tunnel fd₁ fd₂ fd x _ _ _ _ _ hx => rw [sessionThreads_jobs, tunnel_length hx]
      | noTunnel fd₁ fd₂ _ _ _ hneg =>
        have htap := hfit.calls.tuntap
        exact absurd (show 0 < if fd₂ < 1 then a.calls.tuntap else fd₂ by split <;> omega) hneg
      | socket hunset =>
        rw [htun] at hunset
        cases hunset
      | pipe hunset =>
        rw [htun] at hunset
        cases hunset

theorem secondPass_jobs (hfit : ∀ a ∈ as, a.Fit) (h : secondPass net as = .ok net') :
    net'.threads.map Thread.job = net.threads.map Thread.job ++ as.flatMap Listed.jobs := by
  induction as generalizing net with
  | nil =>
    cases h
    rw [List.flatMap_nil, List.append_nil]
  | cons a as ih =>
    obtain ⟨net₁, hstep, hrest⟩ := bind_eq_ok.mp h
    rw [ih (fun b hb => hfit b (List.mem_cons_of_mem _ hb)) hrest,
      enumerateStep_jobs (hfit a (List.mem_cons_self ..)) hstep, List.flatMap_cons,
      List.append_assoc]

theorem Host.Met.jobs (hm : h.Met c a) : a.jobs = c.jobs := by
  obtain ⟨garbage, hc⟩ := hm.holds
  unfold Listed.jobs PeerConf.jobs
  rw [hm.dir?, hc.threads, hc.direction, Int.toNat_natCast]
  cases c.role <;> rfl

/-- The threads that the set-up of a host starts are those of its configuration. -/
theorem Host.Ready.jobs (hr : h.Ready) (hb : h.Boots net) :
    net.threads.map Thread.job = h.confs.flatMap PeerConf.jobs := by
  obtain ⟨ld, ids, hload, hids, hlength, hmet⟩ := hr.met
  obtain ⟨ld', ids', n, hload', hids', hpass⟩ := hb
  obtain rfl : ld = ld' := by
    cases hload.unique hload'
    rfl
  obtain rfl : ids = ids' := Dlist.follow_unique hids hids'
  have hfit : ∀ a ∈ h.listed ld ids, a.Fit := fun a ha => by
    obtain ⟨k, hk, rfl⟩ := List.getElem_of_mem ha
    exact hr.fit (List.getElem_mem (hlength ▸ hk)) (hmet k (hlength ▸ hk) hk)
  have hjobs : (h.listed ld ids).map Listed.jobs = h.confs.map PeerConf.jobs := by
    refine List.ext_getElem (by simpa using hlength) fun k hk hk' => ?_
    rw [List.length_map] at hk hk'
    simp only [List.getElem_map]
    exact (hmet k hk' hk).jobs
  rw [secondPass_jobs hfit hpass, List.flatMap, hjobs]
  rfl

end SetUp

/-! ## Every run of a host

`SupAt.ready` is the part of a run behind the last start. Before it the counters are on their way,
and `threads_registered` says how far. -/

namespace PeerConf

end PeerConf

end Lanes
