import Mathlib.Data.List.Find
import Mathlib.Data.List.TakeWhile
import Hps.Pool.Ownership

/-!
# Pool — the age of connections

`m_createTime` is never set, and both comparisons with the clock run the
wrong way, so that `getConnection` takes what it should drop and `ReleasePtr`
keeps what it should drop. `ages_kept_iff`: nothing goes wrong exactly as
long as the first connected idle connection is young enough at every scan,
and the clock is past `m_maxAliveTime`.
-/

namespace Hps.Pool

open Hps.Lib Hps.Http

variable (cfg : Config) (buff : Response.BuffSize)

/-! ## The property -/

/-- The connection was established less than `m_maxAliveTime` ago. -/
def HttpConnection.Young (c : HttpConnection) (now : Nat) : Prop :=
  now < c.established + cfg.maxAliveTime

/-- The connection is connected, young and can make another request. -/
def HttpConnection.Usable (c : HttpConnection) (now : Nat) : Prop :=
  c.isConnected = true ∧ c.Young cfg now ∧ c.request < cfg.maxRequest

/-- The clock reading of a call that is about to scan the idle list. -/
def Pc.reading : Pc → Option Nat
  | scanning now => some now
  | _ => none

/-- What a scan takes is not too old, and what it drops is not usable. -/
def ScanKept (s : State) (now : Nat) : Prop :=
  (∀ id ∈ (scan (keeps cfg s now) s.conns).2.1, ∀ c ∈ s.conn? id,
    now ≤ c.established + cfg.maxAliveTime) ∧
  ∀ id ∈ (scan (keeps cfg s now) s.conns).1, ∀ c ∈ s.conn? id, ¬c.Usable cfg now

/-- A connection that is let go of is not deleted if it is usable. -/
def ReleaseKept (s : State) (id : ConnId) (c : HttpConnection) (now : Nat) : Prop :=
  HttpConnection.Usable cfg { c with request := c.request + 1 } now →
    (s.release cfg id c now).Live id

/-- The ages are kept by the next section. -/
def AgeKept (s : State) : Act → Prop
  | .go i _ => ∀ now ∈ s.calls[i]?.bind Pc.reading, ScanKept cfg s now
  | .release id now => ∀ c ∈ s.conn? id, ReleaseKept cfg s id c now
  | .request id x now => ∀ c ∈ s.conn? id, ReleaseKept cfg s id (exchange buff x c).2 now
  | _ => True

/-! ## The condition -/

def connected (s : State) (id : ConnId) : Bool := (s.conn? id).any HttpConnection.isConnected

/-- The clock is past `m_maxAliveTime`, and the first connected connection of
the idle list is not too old. -/
def ScanInTime (s : State) (now : Nat) : Prop :=
  ∀ id ∈ s.conns.find? (connected s), ∀ c ∈ s.conn? id,
    cfg.maxAliveTime ≤ now ∧ now ≤ c.established + cfg.maxAliveTime

def ReleaseInTime (c : HttpConnection) (now : Nat) : Prop :=
  HttpConnection.Usable cfg { c with request := c.request + 1 } now → cfg.maxAliveTime < now

def InTime (s : State) : Act → Prop
  | .go i _ => ∀ now ∈ s.calls[i]?.bind Pc.reading, ScanInTime cfg s now
  | .release id now => ∀ c ∈ s.conn? id, ReleaseInTime cfg c now
  | .request id x now => ∀ c ∈ s.conn? id, ReleaseInTime cfg (exchange buff x c).2 now
  | _ => True

instance (c : HttpConnection) (now : Nat) : Decidable (c.Usable cfg now) :=
  inferInstanceAs (Decidable (_ = true ∧ _ < _ ∧ _ < _))

instance (s : State) : (a : Act) → Decidable (AgeKept cfg buff s a)
  | .go i _ => inferInstanceAs (Decidable (∀ now ∈ s.calls[i]?.bind Pc.reading, _ ∧ _))
  | .release id _ => inferInstanceAs (Decidable (∀ c ∈ s.conn? id, _ → _))
  | .request id _ _ => inferInstanceAs (Decidable (∀ c ∈ s.conn? id, _ → _))
  | .getConnection _ => isTrue trivial
  | .close _ => isTrue trivial

instance (s : State) : (a : Act) → Decidable (InTime cfg buff s a)
  | .go i _ => inferInstanceAs (Decidable (∀ now ∈ s.calls[i]?.bind Pc.reading, ∀ id ∈ _, _))
  | .release id _ => inferInstanceAs (Decidable (∀ c ∈ s.conn? id, _ → _))
  | .request id _ _ => inferInstanceAs (Decidable (∀ c ∈ s.conn? id, _ → _))
  | .getConnection _ => isTrue trivial
  | .close _ => isTrue trivial

/-! ## Idle connections have been used -/

/-- What is idle, or about to be, was returned before. -/
def Used (s : State) : Prop :=
  ∀ id, id ∈ s.conns ∨ .pushing id ∈ s.calls → 0 < s.handouts.count id

variable {cfg : Config} {buff : Response.BuffSize} {s s' : State} {a : Act}

/-- The idle list and the calls hold nothing new. -/
theorem Used.mono {t : State} (h : Used s) (hconns : ∀ id ∈ t.conns, id ∈ s.conns)
    (hcalls : ∀ id, .pushing id ∈ t.calls → .pushing id ∈ s.calls)
    (hhandouts : ∀ id, s.handouts.count id ≤ t.handouts.count id) : Used t := by
  intro id hid
  refine Nat.lt_of_lt_of_le (h id ?_) (hhandouts id)
  exact hid.imp (hconns id) (hcalls id)

theorem Used.go {connects : Option Nat} {pc : Pc} (h : Used { s with calls := pc :: s.calls })
    (hs : s.go cfg connects pc = some s') : Used s' := by
  have hrest : ∀ id, .pushing id ∈ s.calls → .pushing id ∈ pc :: s.calls :=
    fun id hid => List.mem_cons_of_mem pc hid
  have hnext : ∀ (pc' : Pc), (∀ id, pc' ≠ .pushing id) →
      ∀ id, .pushing id ∈ pc' :: s.calls → .pushing id ∈ pc :: s.calls := by
    intro pc' hne id hid
    rcases List.mem_cons.mp hid with hid | hid
    · exact absurd hid.symm (hne id)
    · exact hrest id hid
  have hmore : ∀ m id, s.handouts.count id ≤ (m :: s.handouts).count id :=
    fun m id => List.count_le_count_cons
  cases pc with
  | scanning now =>
      cases hs
      refine h.mono ?_ (hnext _ fun _ heq => by cases heq) fun _ => Nat.le_refl _
      intro id hid
      show id ∈ s.conns
      rw [scan_split (keeps cfg s now) s.conns]
      exact List.mem_append_right _ hid
  | dropping invalid ptr =>
      cases hs
      have hdelete := delete_rest s invalid
      refine h.mono ?_ (hnext _ fun _ heq => by cases heq) ?_
      · intro id hid
        rw [hdelete] at hid
        exact hid
      · intro id
        rw [hdelete]
  | subtracting n ptr =>
      cases ptr with
      | some m =>
          cases hs
          exact h.mono (fun _ hid => hid) hrest (hmore m)
      | none =>
          cases hs
          exact h.mono (fun _ hid => hid) (hnext _ fun _ heq => by cases heq)
            fun _ => Nat.le_refl _
  | connecting =>
      cases connects with
      | none =>
          cases hs
          exact h.mono (fun _ hid => hid) hrest fun _ => Nat.le_refl _
      | some now =>
          simp only [State.go] at hs
          split at hs
          · cases hs
          · cases hs
            exact h.mono (fun _ hid => hid) (hnext _ fun _ heq => by cases heq)
              fun _ => Nat.le_refl _
  | counting m =>
      cases hs
      exact h.mono (fun _ hid => hid) hrest (hmore m)
  | uncounting =>
      cases hs
      exact h.mono (fun _ hid => hid) hrest fun _ => Nat.le_refl _
  | pushing m =>
      cases hs
      intro id hid
      rcases hid with hid | hid
      · rcases List.mem_append.mp hid with hid | hid
        · exact h id (.inl hid)
        · rw [List.mem_singleton.mp hid]
          exact h m (.inr List.mem_cons_self)
      · exact h id (.inr (hrest id hid))

theorem Used.release {id : ConnId} {c : HttpConnection} {now : Nat} (hi : Inv cfg s [] 0 0)
    (h : Used s) (hid : id ∈ s.held) (hc : s.conn? id = some c) (c' : HttpConnection) :
    Used (s.release cfg id c' now) := by
  rw [State.release]
  dsimp only
  split
  · refine h.mono (fun _ hn => hn) ?_ fun _ => Nat.le_refl _
    intro n hn
    rcases List.mem_cons.mp hn with hn | hn
    · cases hn
    · exact hn
  · intro n hn
    rcases hn with hn | hn
    · exact h n (.inl hn)
    · rcases List.mem_cons.mp hn with hn | hn
      · cases hn
        -- its holder had it returned
        show 0 < s.handouts.count id
        have := hi.handed id c hc
        have := List.count_pos_iff.mpr hid
        omega
      · exact h n (.inr hn)

theorem Used.step (hi : Inv cfg s [] 0 0) (h : Used s) (hs : step cfg buff s a = some s') :
    Used s' := by
  rcases step_cases hs with ⟨now, -, -, rfl⟩ | ⟨i, connects, pc, -, hpc, hgo⟩ |
    ⟨id, c, -, -, rfl⟩ | ⟨id, c, c', now, -, hid, -, hc, rfl⟩
  · refine h.mono (fun _ hid => hid) ?_ fun _ => Nat.le_refl _
    intro id hid
    rcases List.mem_cons.mp hid with hid | hid
    · cases hid
    · exact hid
  · have hu : Used { s with calls := pc :: s.calls.eraseIdx i } := by
      refine h.mono (fun _ hid => hid) ?_ fun _ => Nat.le_refl _
      intro id hid
      rcases List.mem_cons.mp hid with hid | hid
      · rw [hid]
        exact List.mem_of_getElem? hpc
      · exact List.mem_of_mem_eraseIdx hid
    exact @Used.go cfg { s with calls := s.calls.eraseIdx i } s' connects pc hu hgo
  · exact h.mono (fun _ hid => hid) (fun _ hid => hid) fun _ => Nat.le_refl _
  · exact Used.release hi h hid hc c'

/-! ## Scanning -/

theorem scan_ptr (keep : ConnId → Bool) (conns : List ConnId) :
    (scan keep conns).2.1 = conns.find? keep := by
  induction conns with
  | nil => rfl
  | cons id conns ih =>
      rw [scan, List.find?_cons]
      cases keep id with
      | true => rfl
      | false => exact ih

theorem scan_invalid (keep : ConnId → Bool) (conns : List ConnId) :
    (scan keep conns).1 = conns.takeWhile fun id => !keep id := by
  induction conns with
  | nil => rfl
  | cons id conns ih =>
      rw [scan, List.takeWhile_cons]
      cases keep id with
      | true => rfl
      | false =>
          show id :: (scan keep conns).1 = id :: _
          rw [ih]

/-- An idle connection is live, was not made by this clock, and has requests
left. -/
theorem idle_conn (hi : Inv cfg s [] 0 0) (hu : Used s) {id : ConnId} (hid : id ∈ s.conns) :
    ∃ c, s.conn? id = some c ∧ c.createTime = 0 ∧ c.request < cfg.maxRequest := by
  have hplaced := hi.placed id
  have hpos := List.count_pos_iff.mpr hid
  rw [State.places, List.count_nil] at hplaced
  split at hplaced
  · rename_i hlive
    obtain ⟨c, hc⟩ := Option.isSome_iff_exists.mp hlive
    obtain ⟨hstamp, hrequest⟩ := hi.requests id c hc
    have hhanded := hi.handed id c hc
    have hused := hu id (.inl hid)
    exact ⟨c, hc, hstamp, by omega⟩
  · omega

theorem keeps_idle (hi : Inv cfg s [] 0 0) (hu : Used s) {now : Nat} {id : ConnId}
    (hid : id ∈ s.conns) :
    keeps cfg s now id = (connected s id && decide (cfg.maxAliveTime ≤ now)) := by
  obtain ⟨c, hc, hstamp, -⟩ := idle_conn hi hu hid
  rw [keeps, connected, hc]
  show (c.isConnected && !decide (c.createTime + cfg.maxAliveTime > now)) =
    (c.isConnected && decide (cfg.maxAliveTime ≤ now))
  rw [hstamp, Nat.zero_add, ← decide_not, decide_eq_decide.mpr Nat.not_lt]

theorem scanKept_iff (hi : Inv cfg s [] 0 0) (hu : Used s) (now : Nat) :
    ScanKept cfg s now ↔ ScanInTime cfg s now := by
  rw [ScanKept, ScanInTime, scan_ptr, scan_invalid]
  by_cases hnow : cfg.maxAliveTime ≤ now
  · -- what is connected is taken
    have hkeeps : ∀ id ∈ s.conns, keeps cfg s now id = connected s id := by
      intro id hid
      rw [keeps_idle hi hu hid, decide_eq_true hnow, Bool.and_true]
    rw [List.find?_congr hkeeps]
    constructor
    · intro h id hid c hc
      exact ⟨hnow, h.1 id hid c hc⟩
    · intro h
      refine ⟨fun id hid c hc => (h id hid c hc).2, ?_⟩
      intro id hid c hc husable
      have hdrop := List.mem_takeWhile_imp hid
      rw [hkeeps id (List.takeWhile_subset _ hid), connected, hc] at hdrop
      have hconn : c.isConnected = true := husable.1
      rw [Option.any_some, hconn] at hdrop
      cases hdrop
  · -- everything is dropped
    have hkeeps : ∀ id ∈ s.conns, keeps cfg s now id = false := by
      intro id hid
      rw [keeps_idle hi hu hid, decide_eq_false hnow, Bool.and_false]
    have hnone : s.conns.find? (keeps cfg s now) = none :=
      List.find?_eq_none.mpr fun id hid => by rw [hkeeps id hid]; exact Bool.false_ne_true
    have hall : s.conns.takeWhile (fun id => !keeps cfg s now id) = s.conns :=
      List.takeWhile_eq_self_iff.mpr fun id hid => by rw [hkeeps id hid]; rfl
    rw [hnone, hall]
    constructor
    · intro h id hid c hc
      have hmem := List.mem_of_find?_eq_some hid
      have hconn := List.find?_some hid
      rw [connected, hc, Option.any_some] at hconn
      obtain ⟨d, hd, -, hrequest⟩ := idle_conn hi hu hmem
      obtain rfl := Option.some.inj (hd.symm.trans hc)
      refine absurd ⟨hconn, ?_, hrequest⟩ (h.2 id hmem d hc)
      rw [HttpConnection.Young]
      omega
    · intro h
      refine ⟨nofun, ?_⟩
      intro id hid c hc husable
      obtain ⟨m, hm⟩ : ∃ m, s.conns.find? (connected s) = some m := by
        apply Option.isSome_iff_exists.mp
        rw [List.find?_isSome]
        refine ⟨id, hid, ?_⟩
        rw [connected, hc]
        exact husable.1
      obtain ⟨d, hd, -, -⟩ := idle_conn hi hu (List.mem_of_find?_eq_some hm)
      exact hnow (h m hm d hd).1

/-! ## Letting go -/

theorem releaseKept_iff {id : ConnId} {c c' : HttpConnection} {now : Nat}
    (hc : s.conn? id = some c) (hstamp : c'.createTime = 0) :
    ReleaseKept cfg s id c' now ↔ ReleaseInTime cfg c' now := by
  have hlive : s.Live id := by
    rw [State.Live, hc]
    rfl
  refine forall_congr' fun husable => ?_
  obtain ⟨hconn, -, hrequest⟩ := husable
  -- only the age is left to decide
  rw [live_release hlive, hstamp, Nat.zero_add]
  constructor
  · exact fun h => h.2.1
  · exact fun h => ⟨hconn, h, hrequest⟩

/-! ## Whole runs -/

theorem ageKept_iff (hi : Inv cfg s [] 0 0) (hu : Used s) (a : Act) :
    AgeKept cfg buff s a ↔ InTime cfg buff s a := by
  cases a with
  | getConnection now => exact Iff.rfl
  | go i connects => exact forall_congr' fun now => forall_congr' fun _ => scanKept_iff hi hu now
  | close id => exact Iff.rfl
  | release id now =>
      refine forall_congr' fun c => forall_congr' fun hc => ?_
      exact releaseKept_iff hc (hi.requests id c hc).1
  | request id x now =>
      refine forall_congr' fun c => forall_congr' fun hc => ?_
      exact releaseKept_iff hc ((exchange_kept x c).2.1.trans (hi.requests id c hc).1)

/-- **The age limit.** No idle connection is taken that was established more
than `m_maxAliveTime` before, and no usable one is dropped by a scan or by
its release, exactly if every scan finds the clock past `m_maxAliveTime` and
the first connected idle connection, if there is one, not too old, and every
release of a usable connection the clock past `m_maxAliveTime`. -/
theorem ages_kept_iff (cfg : Config) (buff : Response.BuffSize) (acts : List Act) :
    Meets (step cfg buff) (AgeKept cfg buff) {} acts ↔
      Meets (step cfg buff) (InTime cfg buff) {} acts := by
  have hstep : ∀ s a s', Inv cfg s [] 0 0 ∧ Used s → step cfg buff s a = some s' →
      Inv cfg s' [] 0 0 ∧ Used s' := fun _ _ _ h hs => ⟨h.1.step hs, h.2.step h.1 hs⟩
  have hinit : Inv cfg {} [] 0 0 ∧ Used {} := ⟨inv_init cfg, fun _ hid => by simp at hid⟩
  exact Meets.congr (fun s a s' h _ => hstep s a s' h) (fun _ a h => ageKept_iff h.1 h.2 a) hinit

/-- A connection is made and released, and taken from the idle list a
hundred seconds later, with a second as the limit. -/
def stale : List Act :=
  [.getConnection 1700000000000, .go 0 none, .go 0 none, .go 0 none, .go 0 (some 1700000000000),
   .go 0 none, .release 0 1700000000001, .go 0 none, .getConnection 1700000100000, .go 0 none,
   .go 0 none, .go 0 none]

theorem stale_taken :
    (run (step ⟨1000, 5⟩ ⟨100, by decide, by decide⟩) {} stale).isSome ∧
      ¬Meets (step ⟨1000, 5⟩ ⟨100, by decide, by decide⟩)
        (AgeKept ⟨1000, 5⟩ ⟨100, by decide, by decide⟩) {} stale := by
  decide +kernel

end Hps.Pool
