import Mathlib.Algebra.Ring.Nat
import Mathlib.Algebra.BigOperators.Group.List.Basic
import Hps.Pool.Model

/-!
# Pool — every connection has one owner

A live connection is idle, handed out, or in the hands of a call in progress,
and only one of these (`Inv`). What `m_total` is behind or ahead of the live
connections is what the calls in progress have still to add or to subtract.
-/

namespace Hps.Pool

open Hps.Lib Hps.Http

/-! ## The places of a connection -/

namespace Pc

/-- The connections a call in progress has in its hands. -/
def owns : Pc → List ConnId
  | dropping invalid ptr => invalid ++ ptr.toList
  | subtracting _ ptr => ptr.toList
  | counting id => [id]
  | pushing id => [id]
  | _ => []

/-- What it has still to add to `m_total`. -/
def adds : Pc → Nat
  | counting _ => 1
  | _ => 0

/-- What it has still to subtract. -/
def subs : Pc → Nat
  | subtracting n _ => n
  | uncounting => 1
  | _ => 0

end Pc

namespace State

def Live (s : State) (id : ConnId) : Prop := (s.conn? id).isSome

instance (s : State) (id : ConnId) : Decidable (s.Live id) :=
  inferInstanceAs (Decidable ((s.conn? id).isSome = true))

def liveCount (s : State) : Nat := s.heap.countP Option.isSome

/-- The connections in the hands of the calls in progress. -/
def limbo (s : State) : List ConnId := s.calls.flatMap Pc.owns

/-- How often a connection is idle, handed out or in the hands of a call. -/
def places (s : State) (id : ConnId) : Nat :=
  s.conns.count id + s.held.count id + s.limbo.count id

end State

/-- The invariant, beside a call that has the connections `own` in its hands
and has still to add `add` to `m_total` and to subtract `sub`. -/
structure Inv (cfg : Config) (s : State) (own : List ConnId) (add sub : Nat) : Prop where
  placed : ∀ id, s.places id + own.count id = if s.Live id then 1 else 0
  counted : s.total + ((s.calls.map Pc.adds).sum + add : Nat) =
    s.liveCount + ((s.calls.map Pc.subs).sum + sub : Nat)
  requests : ∀ id c, s.conn? id = some c →
    c.createTime = 0 ∧ (c.request = 0 ∨ c.request < cfg.maxRequest)
  handed : ∀ id c, s.conn? id = some c →
    s.handouts.count id = c.request + s.held.count id
  limited : ∀ id, s.handouts.count id ≤ max 1 cfg.maxRequest
  made : ∀ id ∈ s.handouts, id < s.heap.length

/-! ## The heap -/

section Heap

variable {s : State} {id n : ConnId} {c : Option HttpConnection}

theorem lt_of_live (h : s.Live id) : id < s.heap.length := by
  by_contra hge
  rw [State.Live, State.conn?, List.getElem?_eq_none (Nat.not_lt.mp hge)] at h
  cases h

theorem conn?_put (h : s.Live id) :
    (s.put id c).conn? n = if n = id then c else s.conn? n := by
  have hlt := lt_of_live h
  rw [State.conn?, State.put, List.getElem?_set]
  by_cases hn : id = n
  · subst hn
    rw [if_pos rfl, if_pos hlt, if_pos rfl]
    rfl
  · rw [if_neg hn, if_neg (Ne.symm hn)]
    rfl

/-- Over a live connection, something is written: the count follows. -/
theorem liveCount_put (h : s.Live id) :
    (s.put id c).liveCount + 1 = s.liveCount + if c.isSome then 1 else 0 := by
  rw [State.Live, State.conn?] at h
  show (s.heap.set id c).countP Option.isSome + 1 =
    s.heap.countP Option.isSome + if c.isSome then 1 else 0
  generalize s.heap = heap at h ⊢
  induction heap generalizing id with
  | nil => cases h
  | cons x heap ih =>
      cases id with
      | zero =>
          have hx : x.isSome = true := h
          rw [List.set_cons_zero, List.countP_cons, List.countP_cons, if_pos hx]
          omega
      | succ id =>
          have htail := @ih id h
          rw [List.set_cons_succ, List.countP_cons, List.countP_cons]
          omega

theorem conn?_make (s : State) (c : HttpConnection) (n : ConnId) :
    (s.make c).conn? n = if n = s.heap.length then some c else s.conn? n := by
  rw [State.conn?, State.make, State.conn?]
  dsimp only
  by_cases hn : n = s.heap.length
  · rw [hn, if_pos rfl, List.getElem?_concat_length]
    rfl
  · rw [if_neg hn]
    by_cases hlt : n < s.heap.length
    · rw [List.getElem?_append_left hlt]
    · have hgt : s.heap.length < n := Nat.lt_of_le_of_ne (Nat.not_lt.mp hlt) (Ne.symm hn)
      have hout : (s.heap ++ [some c]).length ≤ n := by
        rw [List.length_append, List.length_singleton]
        exact hgt
      rw [List.getElem?_eq_none hout, List.getElem?_eq_none (Nat.le_of_lt hgt)]

theorem liveCount_make (s : State) (c : HttpConnection) :
    (s.make c).liveCount = s.liveCount + 1 := by
  rw [State.liveCount, State.make, State.liveCount]
  dsimp only
  rw [List.countP_append, List.countP_singleton]
  rfl

/-- `delete` of live connections. -/
theorem delete_heap {ids : List ConnId} (hnodup : ids.Nodup) (hlive : ∀ id ∈ ids, s.Live id) :
    (∀ n, (s.delete ids).conn? n = if n ∈ ids then none else s.conn? n) ∧
      (s.delete ids).liveCount + ids.length = s.liveCount := by
  induction ids generalizing s with
  | nil => exact ⟨fun _ => rfl, rfl⟩
  | cons id ids ih =>
      obtain ⟨hid, hrest⟩ := List.nodup_cons.mp hnodup
      have hfirst := hlive id List.mem_cons_self
      have hlive' : ∀ n ∈ ids, (s.put id none).Live n := by
        intro n hn
        have hne : n ≠ id := by
          rintro rfl
          exact hid hn
        rw [State.Live, conn?_put hfirst, if_neg hne]
        exact hlive n (List.mem_cons_of_mem id hn)
      obtain ⟨hconn, hcount⟩ := ih hrest hlive'
      refine ⟨?_, ?_⟩
      · intro n
        rw [State.delete, hconn n, conn?_put hfirst]
        by_cases hn : n = id
        · subst hn
          rw [if_pos rfl, if_pos List.mem_cons_self]
          split <;> rfl
        · rw [if_neg hn]
          by_cases hmem : n ∈ ids
          · rw [if_pos hmem, if_pos (List.mem_cons_of_mem id hmem)]
          · rw [if_neg hmem, if_neg (by simp [hn, hmem])]
      · have hput := liveCount_put (c := none) hfirst
        simp only [Option.isSome_none, Bool.false_eq_true, if_false] at hput
        rw [State.delete, List.length_cons]
        omega

theorem length_delete (s : State) (ids : List ConnId) :
    (s.delete ids).heap.length = s.heap.length := by
  induction ids generalizing s with
  | nil => rfl
  | cons id ids ih => rw [State.delete, ih, State.put, List.length_set]

/-- Nothing but the heap changes. -/
theorem delete_rest (s : State) (ids : List ConnId) :
    s.delete ids = { s with heap := (s.delete ids).heap } := by
  induction ids generalizing s with
  | nil => rfl
  | cons id ids ih =>
      rw [State.delete]
      exact ih (s.put id none)

end Heap

/-! ## Calls in progress -/

section Calls

variable {cfg : Config} {s : State}

theorem perm_counts {s t : State} (hp : s.calls.Perm t.calls) (id : ConnId) :
    s.limbo.count id = t.limbo.count id ∧
      (s.calls.map Pc.adds).sum = (t.calls.map Pc.adds).sum ∧
      (s.calls.map Pc.subs).sum = (t.calls.map Pc.subs).sum :=
  ⟨(hp.flatMap_right Pc.owns).count_eq id, (hp.map Pc.adds).sum_eq, (hp.map Pc.subs).sum_eq⟩

variable {own : List ConnId} {add sub : Nat} {pc : Pc}

/-- A call in progress, taken out of the others. -/
theorem Inv.take {s : State} {i : Nat} (h : Inv cfg s [] 0 0) (hpc : s.calls[i]? = some pc) :
    Inv cfg { s with calls := s.calls.eraseIdx i } pc.owns pc.adds pc.subs := by
  obtain ⟨hi, hget⟩ := List.getElem?_eq_some_iff.mp hpc
  have hp : s.calls.Perm (pc :: s.calls.eraseIdx i) := by
    rw [← hget]
    exact (List.getElem_cons_eraseIdx_perm hi).symm
  have hcounts := perm_counts (s := s) (t := { s with calls := pc :: s.calls.eraseIdx i }) hp
  refine ⟨?_, ?_, h.requests, h.handed, h.limited, h.made⟩
  · intro id
    refine Eq.trans ?_ (h.placed id)
    rw [State.places, State.places, (hcounts id).1, State.limbo, State.limbo,
      List.flatMap_cons, List.count_append, List.count_nil]
    dsimp only
    omega
  · obtain ⟨-, hadds, hsubs⟩ := hcounts 0
    have hcounted := h.counted
    rw [hadds, hsubs, List.map_cons, List.sum_cons, List.map_cons, List.sum_cons] at hcounted
    show s.total + (((s.calls.eraseIdx i).map Pc.adds).sum + pc.adds : Nat) =
      s.liveCount + (((s.calls.eraseIdx i).map Pc.subs).sum + pc.subs : Nat)
    omega

/-- The call, put beside the others again. -/
theorem Inv.call (pc : Pc) (h : Inv cfg s pc.owns pc.adds pc.subs) :
    Inv cfg { s with calls := pc :: s.calls } [] 0 0 := by
  refine ⟨?_, ?_, h.requests, h.handed, h.limited, h.made⟩
  · intro id
    refine Eq.trans ?_ (h.placed id)
    rw [State.places, State.places, State.limbo, State.limbo, List.flatMap_cons,
      List.count_append, List.count_nil]
    dsimp only
    omega
  · have hcounted := h.counted
    show s.total + (((pc :: s.calls).map Pc.adds).sum + 0 : Nat) =
      s.liveCount + (((pc :: s.calls).map Pc.subs).sum + 0 : Nat)
    rw [List.map_cons, List.sum_cons, List.map_cons, List.sum_cons]
    omega

theorem scan_split (keep : ConnId → Bool) (conns : List ConnId) :
    conns = (scan keep conns).1 ++ (scan keep conns).2.1.toList ++ (scan keep conns).2.2 := by
  induction conns with
  | nil => rfl
  | cons id conns ih =>
      rw [scan]
      split
      · rfl
      · dsimp only
        rw [List.cons_append, List.cons_append, ← ih]

/-- A connection in the hands of a call is live, and nowhere else. -/
theorem Inv.own_live (h : Inv cfg s own add sub) {id : ConnId} (hid : id ∈ own) :
    s.Live id ∧ s.places id = 0 ∧ own.count id = 1 := by
  have hplaced := h.placed id
  have hpos := List.count_pos_iff.mpr hid
  split at hplaced
  · rename_i hlive
    exact ⟨hlive, by omega, by omega⟩
  · omega

/-! ### The sections -/

theorem Inv.scan {now : Nat} (h : Inv cfg s [] 0 0) {invalid conns : List ConnId}
    {ptr : Option ConnId} (hscan : Pool.scan (keeps cfg s now) s.conns = (invalid, ptr, conns)) :
    Inv cfg { s with conns } (invalid ++ ptr.toList) 0 0 := by
  have hsplit := scan_split (keeps cfg s now) s.conns
  rw [hscan] at hsplit
  dsimp only at hsplit
  refine ⟨?_, h.counted, h.requests, h.handed, h.limited, h.made⟩
  intro id
  refine Eq.trans ?_ (h.placed id)
  rw [State.places, State.places, hsplit, List.count_append, List.count_append,
    List.count_append, List.count_nil]
  show conns.count id + s.held.count id + s.limbo.count id + _ = _
  omega

/-- Deleting connections that nobody else has. -/
theorem Inv.delete {ids : List ConnId} (h : Inv cfg s (ids ++ own) add sub) :
    Inv cfg (s.delete ids) own add (sub + ids.length) := by
  have hlive : ∀ id ∈ ids, s.Live id := fun id hid =>
    (h.own_live (List.mem_append_left own hid)).1
  have hnodup : ids.Nodup := by
    apply List.nodup_iff_count_le_one.mpr
    intro id
    have hplaced := h.placed id
    rw [List.count_append] at hplaced
    split at hplaced <;> omega
  obtain ⟨hconn, hcount⟩ := delete_heap hnodup hlive
  have hrest := delete_rest s ids
  have hlen := length_delete s ids
  revert hconn hcount hrest hlen
  generalize s.delete ids = t
  intro hconn hcount hrest hlen
  have hconns : t.conns = s.conns := by rw [hrest]
  have hheld : t.held = s.held := by rw [hrest]
  have hcalls : t.calls = s.calls := by rw [hrest]
  have htotal : t.total = s.total := by rw [hrest]
  have hhandouts : t.handouts = s.handouts := by rw [hrest]
  refine ⟨?_, ?_, ?_, ?_, ?_, ?_⟩
  · intro id
    have hplaced := h.placed id
    rw [List.count_append, State.places, State.limbo] at hplaced
    rw [State.places, State.limbo, hconns, hheld, hcalls]
    by_cases hid : id ∈ ids
    · have hpos := List.count_pos_iff.mpr hid
      have hdead : ¬t.Live id := by
        rw [State.Live, hconn id, if_pos hid]
        exact Bool.false_ne_true
      rw [if_neg hdead]
      split at hplaced <;> omega
    · have hsame : t.Live id ↔ s.Live id := by
        rw [State.Live, State.Live, hconn id, if_neg hid]
      rw [List.count_eq_zero.mpr hid] at hplaced
      rw [if_congr hsame rfl rfl]
      refine Eq.trans ?_ hplaced
      omega
  · have hcounted := h.counted
    rw [hcalls, htotal]
    omega
  · intro id c hc
    rw [hconn id] at hc
    split at hc
    · cases hc
    · exact h.requests id c hc
  · intro id c hc
    rw [hconn id] at hc
    split at hc
    · cases hc
    · rw [hhandouts, hheld]
      exact h.handed id c hc
  · rw [hhandouts]
    exact h.limited
  · rw [hhandouts, hlen]
    exact h.made

/-- Returning a connection. -/
theorem Inv.hand {id : ConnId} (h : Inv cfg s [id] add sub) :
    Inv cfg { s with held := id :: s.held, handouts := id :: s.handouts } [] add sub := by
  obtain ⟨hlive, hnowhere, -⟩ := h.own_live (List.mem_singleton.mpr rfl)
  rw [State.places] at hnowhere
  refine ⟨?_, h.counted, h.requests, ?_, ?_, ?_⟩
  · intro n
    refine Eq.trans ?_ (h.placed n)
    rw [State.places, State.places, State.limbo, State.limbo, List.count_cons, List.count_cons,
      List.count_nil]
    dsimp only
    omega
  · intro n c hc
    rw [List.count_cons, List.count_cons, h.handed n c hc]
    omega
  · intro n
    rw [List.count_cons]
    split
    · rename_i hn
      have hn' : n = id := (beq_iff_eq.mp hn).symm
      obtain ⟨c, hc⟩ := Option.isSome_iff_exists.mp hlive
      have := h.handed id c hc
      have := (h.requests id c hc).2
      rw [hn']
      omega
    · exact h.limited n
  · intro n hn
    rcases List.mem_cons.mp hn with rfl | hn
    · exact lt_of_live hlive
    · exact h.made n hn

/-- Making a connection. -/
theorem Inv.make {c : HttpConnection} (h : Inv cfg s [] 0 0) (hc : c.request = 0)
    (ht : c.createTime = 0) : Inv cfg (s.make c) [s.heap.length] 1 0 := by
  have hnot : ¬s.Live s.heap.length := fun hlive => Nat.lt_irrefl _ (lt_of_live hlive)
  -- the new index is nowhere, and was never handed out
  have hnowhere := h.placed s.heap.length
  rw [if_neg hnot, State.places, List.count_nil] at hnowhere
  have hfresh : s.handouts.count s.heap.length = 0 :=
    List.count_eq_zero.mpr fun hmem => Nat.lt_irrefl _ (h.made _ hmem)
  refine ⟨?_, ?_, ?_, ?_, h.limited, ?_⟩
  · intro n
    by_cases hn : n = s.heap.length
    · have hlive : (s.make c).Live n := by
        rw [State.Live, conn?_make, if_pos hn]
        rfl
      rw [if_pos hlive, hn, List.count_singleton_self]
      show s.conns.count s.heap.length + s.held.count s.heap.length +
        s.limbo.count s.heap.length + 1 = 1
      omega
    · have hsame : (s.make c).Live n ↔ s.Live n := by
        rw [State.Live, State.Live, conn?_make, if_neg hn]
      rw [if_congr hsame rfl rfl, ← h.placed n,
        List.count_eq_zero.mpr fun hmem => hn (List.mem_singleton.mp hmem), List.count_nil]
      rfl
  · have hcounted := h.counted
    rw [liveCount_make]
    show s.total + ((s.calls.map Pc.adds).sum + 1 : Nat) =
      (s.liveCount + 1 : Nat) + ((s.calls.map Pc.subs).sum + 0 : Nat)
    omega
  · intro n d hd
    rw [conn?_make] at hd
    split at hd
    · rw [← Option.some.inj hd]
      exact ⟨ht, .inl hc⟩
    · exact h.requests n d hd
  · intro n d hd
    rw [conn?_make] at hd
    split at hd
    · rename_i hn
      show s.handouts.count n = d.request + s.held.count n
      rw [← Option.some.inj hd, hc, hn, hfresh]
      omega
    · exact h.handed n d hd
  · intro n hn
    show n < (s.heap ++ [some c]).length
    rw [List.length_append]
    exact Nat.lt_add_right _ (h.made n hn)

theorem Inv.push {id : ConnId} (h : Inv cfg s [id] 0 0) :
    Inv cfg { s with conns := s.conns ++ [id] } [] 0 0 := by
  refine ⟨?_, h.counted, h.requests, h.handed, h.limited, h.made⟩
  intro n
  refine Eq.trans ?_ (h.placed n)
  rw [State.places, State.places, State.limbo, State.limbo, List.count_append, List.count_nil]
  dsimp only
  omega

section LetGo

variable {id : ConnId} {c : HttpConnection} {o : Option HttpConnection} {now : Nat}

theorem conn?_letGo (hc : s.conn? id = some c) (n : ConnId) :
    State.conn? { s.put id o with held := s.held.erase id, clock := now } n =
      if n = id then o else s.conn? n := by
  have hlive : s.Live id := by
    rw [State.Live, hc]
    rfl
  exact conn?_put hlive

/-- A connection that is let go is in nobody's hands, or in those of the call. -/
theorem Inv.placed_letGo (h : Inv cfg s [] 0 0) (hid : id ∈ s.held)
    (hc : s.conn? id = some c) (n : ConnId) :
    State.places { s.put id o with held := s.held.erase id, clock := now } n +
        (o.toList.map fun _ => id).count n =
      if State.Live { s.put id o with held := s.held.erase id, clock := now } n then 1 else 0 := by
  have hconn : State.conn? { s.put id o with held := s.held.erase id, clock := now } n =
      if n = id then o else s.conn? n := conn?_letGo hc n
  show s.conns.count n + (s.held.erase id).count n + s.limbo.count n + _ = _
  by_cases hn : n = id
  · subst hn
    have hlive : s.Live n := by
      rw [State.Live, hc]
      rfl
    have hnowhere := h.placed n
    rw [if_pos hlive, State.places, List.count_nil] at hnowhere
    have hself : (s.held.erase n).count n + 1 = s.held.count n := by
      have := List.count_pos_iff.mpr hid
      rw [List.count_erase_self]
      omega
    rw [if_pos rfl] at hconn
    -- it was in its holder's hands only, so it is nowhere now, or with the call
    cases o with
    | none =>
        rw [if_neg (by rw [State.Live, hconn]; exact Bool.false_ne_true)]
        show _ + 0 = 0
        omega
    | some c' =>
        rw [if_pos (by rw [State.Live, hconn]; rfl)]
        show _ + [n].count n = 1
        rw [List.count_singleton_self]
        omega
  · have hsame : State.Live { s.put id o with held := s.held.erase id, clock := now } n ↔
        s.Live n := by
      rw [State.Live, State.Live, hconn, if_neg hn]
    have hnone : (o.toList.map fun _ => id).count n = 0 := by
      apply List.count_eq_zero.mpr
      intro hmem
      obtain ⟨-, -, hmem⟩ := List.mem_map.mp hmem
      exact hn hmem.symm
    rw [if_congr hsame rfl rfl, ← h.placed n, List.count_erase_of_ne hn, hnone]
    rfl

/-- Letting go of a connection: it is deleted, or it goes back. -/
theorem Inv.letGo (h : Inv cfg s [] 0 0) (hid : id ∈ s.held) (hc : s.conn? id = some c)
    (ho : ∀ c' ∈ o, c'.createTime = 0 ∧ c'.request = c.request + 1 ∧
      c'.request < cfg.maxRequest) :
    Inv cfg { s.put id o with held := s.held.erase id, clock := now }
      (o.toList.map fun _ => id) 0 (if o.isSome then 0 else 1) := by
  have hlive : s.Live id := by
    rw [State.Live, hc]
    rfl
  have hconn : ∀ n, State.conn? { s.put id o with held := s.held.erase id, clock := now } n =
      if n = id then o else s.conn? n := conn?_letGo hc
  refine ⟨h.placed_letGo hid hc, ?_, ?_, ?_, h.limited, ?_⟩
  · have hcounted := h.counted
    have hput := liveCount_put (c := o) hlive
    show s.total + ((s.calls.map Pc.adds).sum + 0 : Nat) =
      ((s.put id o).liveCount : Nat) +
        ((s.calls.map Pc.subs).sum + if o.isSome then 0 else 1 : Nat)
    split at hput
    · rename_i hsome
      rw [if_pos hsome]
      omega
    · rename_i hnone
      rw [if_neg hnone]
      omega
  · intro n d hd
    rw [hconn] at hd
    split at hd
    · exact ⟨(ho d hd).1, .inr (ho d hd).2.2⟩
    · exact h.requests n d hd
  · intro n d hd
    rw [hconn] at hd
    show s.handouts.count n = d.request + (s.held.erase id).count n
    split at hd
    · rename_i hn
      have hhanded := h.handed id c hc
      have hrequest := (ho d hd).2.1
      have hpos := List.count_pos_iff.mpr hid
      rw [hn, List.count_erase_self]
      omega
    · rename_i hn
      rw [List.count_erase_of_ne hn]
      exact h.handed n d hd
  · intro n hn
    show n < (s.heap.set id o).length
    rw [List.length_set]
    exact h.made n hn

end LetGo

/-- `ReleasePtr`, whatever its holder did to the connection's socket. -/
theorem Inv.release {id : ConnId} {c c' : HttpConnection} {now : Nat} (h : Inv cfg s [] 0 0)
    (hid : id ∈ s.held) (hc : s.conn? id = some c) (hc' : c'.request = c.request)
    (ht : c'.createTime = c.createTime) : Inv cfg (s.release cfg id c' now) [] 0 0 := by
  rw [State.release]
  dsimp only
  split
  · exact (h.letGo (o := none) hid hc nofun).call (.uncounting)
  · rename_i hkeep
    have hless : c'.request + 1 < cfg.maxRequest := by
      rw [Bool.or_eq_true, not_or] at hkeep
      have := hkeep.2
      rw [decide_eq_true_eq] at this
      omega
    refine Inv.call (.pushing id) (h.letGo (o := some _) hid hc ?_)
    intro d hd
    obtain rfl := Option.some.inj hd
    exact ⟨ht.trans (h.requests id c hc).1, congrArg (· + 1) hc', hless⟩

/-- A connection survives its release if it is open, of the right age, and
has requests left. -/
theorem live_release {id : ConnId} {c : HttpConnection} {now : Nat} (h : s.Live id) :
    (s.release cfg id c now).Live id ↔ c.isConnected = true ∧
      c.createTime + cfg.maxAliveTime < now ∧ c.request + 1 < cfg.maxRequest := by
  have hput : ∀ o, (s.put id o).Live id ↔ o.isSome = true := by
    intro o
    rw [State.Live, conn?_put h, if_pos rfl]
  rw [State.release]
  dsimp only
  split
  · rename_i hdeleted
    refine iff_of_false (fun hlive => ?_) ?_
    · cases (hput none).mp hlive
    · rintro ⟨hopen, hage, hleft⟩
      have hopen' : HttpConnection.isConnected { c with request := c.request + 1 } = true := hopen
      rw [hopen', Bool.not_true, Bool.false_or, Bool.or_eq_true, decide_eq_true_eq,
        decide_eq_true_eq] at hdeleted
      omega
  · rename_i hkept
    refine iff_of_true ((hput (some _)).mpr rfl) ?_
    rw [Bool.or_eq_true, not_or, Bool.or_eq_true, not_or, decide_eq_true_eq,
      decide_eq_true_eq, Bool.not_eq_true, Bool.not_eq_false'] at hkept
    exact ⟨hkept.1.1, Nat.not_le.mp hkept.1.2, Nat.not_le.mp hkept.2⟩

/-- The connection someone closes stays where it is. -/
theorem Inv.close {id : ConnId} {c : HttpConnection} (h : Inv cfg s [] 0 0)
    (hc : s.conn? id = some c) : Inv cfg (s.put id (some c.close)) [] 0 0 := by
  have hlive : s.Live id := by
    rw [State.Live, hc]
    rfl
  have hsame : ∀ n, (s.put id (some c.close)).Live n ↔ s.Live n := by
    intro n
    rw [State.Live, State.Live, conn?_put hlive]
    split
    · rename_i hn
      rw [hn, hc]
      rfl
    · rfl
  have hrequest : ∀ n d, (s.put id (some c.close)).conn? n = some d →
      ∃ d', s.conn? n = some d' ∧ d.request = d'.request ∧ d.createTime = d'.createTime := by
    intro n d hd
    rw [conn?_put hlive] at hd
    split at hd
    · rename_i hn
      refine ⟨c, by rw [hn, hc], ?_⟩
      rw [← Option.some.inj hd]
      exact ⟨rfl, rfl⟩
    · exact ⟨d, hd, rfl, rfl⟩
  refine ⟨?_, ?_, ?_, ?_, h.limited, ?_⟩
  · intro n
    rw [if_congr (hsame n) rfl rfl]
    exact h.placed n
  · have hput := liveCount_put (c := some c.close) hlive
    have hcount : (s.put id (some c.close)).liveCount = s.liveCount := by
      simp only [Option.isSome_some, if_true] at hput
      omega
    rw [hcount]
    exact h.counted
  · intro n d hd
    obtain ⟨d', hd', hr, ht⟩ := hrequest n d hd
    rw [hr, ht]
    exact h.requests n d' hd'
  · intro n d hd
    obtain ⟨d', hd', hr, -⟩ := hrequest n d hd
    rw [hr]
    exact h.handed n d' hd'
  · intro n hn
    show n < (s.heap.set id _).length
    rw [List.length_set]
    exact h.made n hn

/-- The counter catches up. -/
theorem Inv.settle (total : Int) (h : Inv cfg s own add sub) (ht : total + sub = s.total + add) :
    Inv cfg { s with total } own 0 0 := by
  refine ⟨h.placed, ?_, h.requests, h.handed, h.limited, h.made⟩
  have hcounted := h.counted
  show total + ((s.calls.map Pc.adds).sum + 0 : Nat) =
    s.liveCount + ((s.calls.map Pc.subs).sum + 0 : Nat)
  omega

/-- The next section of a call. -/
theorem Inv.go {connects : Option Nat} {s' : State} (h : Inv cfg s pc.owns pc.adds pc.subs)
    (hs : s.go cfg connects pc = some s') : Inv cfg s' [] 0 0 := by
  cases pc with
  | scanning now =>
      cases hs
      exact (h.scan rfl).call (.dropping _ _)
  | dropping invalid ptr =>
      cases hs
      have hcalls : (s.delete invalid).calls = s.calls := by rw [delete_rest]
      have hd := h.delete
      rw [show Pc.subs (.dropping invalid ptr) + invalid.length = invalid.length from
        Nat.zero_add _] at hd
      have hcall := hd.call (.subtracting invalid.length ptr)
      rw [hcalls] at hcall
      exact hcall
  | subtracting n ptr =>
      have hsettled := h.settle (s.total - n) (by simp [Pc.adds, Pc.subs])
      cases ptr with
      | some id =>
          cases hs
          exact hsettled.hand
      | none =>
          cases hs
          exact hsettled.call (.connecting)
  | connecting =>
      cases connects with
      | none =>
          cases hs
          exact h
      | some now =>
          simp only [State.go] at hs
          split at hs
          · cases hs
          · cases hs
            have hmade := (h.make (c := .new now) rfl rfl).call (.counting s.heap.length)
            exact ⟨hmade.placed, hmade.counted, hmade.requests, hmade.handed, hmade.limited,
              hmade.made⟩
  | counting id =>
      cases hs
      exact (h.settle (s.total + 1) (by simp [Pc.adds, Pc.subs])).hand
  | uncounting =>
      cases hs
      exact h.settle (s.total - 1) (by simp [Pc.adds, Pc.subs])
  | pushing id =>
      cases hs
      exact h.push

end Calls

/-! ## Whole runs -/

section Runs

variable {cfg : Config} {buff : Response.BuffSize} {s s' : State} {a : Act}

/-- What a request leaves of the connection. -/
theorem exchange_kept (x : Exchange) (c : HttpConnection) :
    (exchange buff x c).2.request = c.request ∧
      (exchange buff x c).2.createTime = c.createTime ∧
      (exchange buff x c).2.established = c.established := by
  rw [exchange]
  dsimp only
  split
  · exact ⟨rfl, rfl, rfl⟩
  · split
    · exact ⟨rfl, rfl, rfl⟩
    · split <;> exact ⟨rfl, rfl, rfl⟩

/-- What a section can do: begin a call, take one further, close a
connection, or let go of one. -/
theorem step_cases (h : step cfg buff s a = some s') :
    (∃ now, a = .getConnection now ∧ s.clock ≤ now ∧
      s' = { s with calls := .scanning now :: s.calls, clock := now }) ∨
    (∃ i connects pc, a = .go i connects ∧ s.calls[i]? = some pc ∧
      State.go cfg { s with calls := s.calls.eraseIdx i } connects pc = some s') ∨
    (∃ id c, a = .close id ∧ s.conn? id = some c ∧ s' = s.put id (some c.close)) ∨
    (∃ id c c' now, (a = .release id now ∧ c' = c ∨
        ∃ x, a = .request id x now ∧ c' = (exchange buff x c).2) ∧
      id ∈ s.held ∧ s.clock ≤ now ∧ s.conn? id = some c ∧ s' = s.release cfg id c' now) := by
  cases a with
  | getConnection now =>
      simp only [step] at h
      split at h
      · cases h
      · rename_i hnow
        cases h
        exact .inl ⟨now, rfl, Nat.not_lt.mp hnow, rfl⟩
  | go i connects =>
      simp only [step] at h
      split at h
      · cases h
      · rename_i pc hpc
        exact .inr (.inl ⟨i, connects, pc, rfl, hpc, h⟩)
  | close id =>
      obtain ⟨c, hc, rfl⟩ := Option.map_eq_some_iff.mp h
      exact .inr (.inr (.inl ⟨id, c, rfl, hc, rfl⟩))
  | release id now =>
      simp only [step] at h
      split at h
      · rename_i hheld
        obtain ⟨c, hc, rfl⟩ := Option.map_eq_some_iff.mp h
        exact .inr (.inr (.inr ⟨id, c, c, now, .inl ⟨rfl, rfl⟩, hheld.1, hheld.2, hc, rfl⟩))
      · cases h
  | request id x now =>
      simp only [step] at h
      split at h
      · rename_i hheld
        split at h
        · cases h
        · rename_i c hc
          refine .inr (.inr (.inr ⟨id, c, (exchange buff x c).2, now, .inr ⟨x, rfl, rfl⟩,
            hheld.1, hheld.2, hc, ?_⟩))
          split at h
          · rename_i hx
            rw [hx]
            exact (Option.some.inj h).symm
          · rename_i hx
            rw [hx]
            exact (Option.some.inj h).symm
          · cases h
      · cases h

theorem Inv.step (h : Inv cfg s [] 0 0) (hs : step cfg buff s a = some s') :
    Inv cfg s' [] 0 0 := by
  rcases step_cases hs with ⟨now, -, -, rfl⟩ | ⟨i, connects, pc, -, hpc, hgo⟩ |
    ⟨id, c, -, hc, rfl⟩ | ⟨id, c, c', now, hc', hid, -, hc, rfl⟩
  · have hcall := h.call (.scanning now)
    exact ⟨hcall.placed, hcall.counted, hcall.requests, hcall.handed, hcall.limited, hcall.made⟩
  · exact (h.take hpc).go hgo
  · exact h.close hc
  · rcases hc' with ⟨-, hc'⟩ | ⟨x, -, hc'⟩
    · rw [hc']
      exact h.release hid hc rfl rfl
    · rw [hc']
      exact h.release hid hc (exchange_kept x c).1 (exchange_kept x c).2.1

theorem inv_init (cfg : Config) : Inv cfg {} [] 0 0 where
  placed := fun _ => rfl
  counted := rfl
  requests := nofun
  handed := nofun
  limited := fun _ => Nat.zero_le _
  made := nofun

theorem inv_run {acts : List Act} (hrun : run (step cfg buff) {} acts = some s) :
    Inv cfg s [] 0 0 := by
  have hstep : ∀ s a s', Inv cfg s [] 0 0 → step cfg buff s a = some s' → Inv cfg s' [] 0 0 :=
    fun _ _ _ h hs => h.step hs
  exact run_invariant' hstep (inv_init cfg) hrun

/-! ### Deleted connections -/

/-- The connection was deleted after it was returned `n` times. -/
structure Dead (id : ConnId) (n : Nat) (s : State) : Prop where
  made : id < s.heap.length
  gone : s.conn? id = none
  count : s.handouts.count id = n

variable {id : ConnId} {n : Nat}

theorem Dead.ne {c : HttpConnection} {m : ConnId} (hd : Dead id n s) (hm : s.conn? m = some c) :
    id ≠ m := by
  rintro rfl
  rw [hd.gone] at hm
  cases hm

theorem Dead.put {m : ConnId} {o : Option HttpConnection} (hd : Dead id n s) (hne : id ≠ m) :
    Dead id n (s.put m o) where
  made := by
    rw [State.put, List.length_set]
    exact hd.made
  gone := by
    rw [State.conn?, State.put, List.getElem?_set_ne (Ne.symm hne)]
    exact hd.gone
  count := hd.count

theorem Dead.delete (hd : Dead id n s) (ids : List ConnId) : Dead id n (s.delete ids) := by
  induction ids generalizing s with
  | nil => exact hd
  | cons m ids ih =>
      apply ih
      by_cases hm : id = m
      · refine ⟨by rw [State.put, List.length_set]; exact hd.made, ?_, hd.count⟩
        have hm' : s.heap[m]?.join = none := hm ▸ hd.gone
        rw [State.conn?, State.put, hm, List.getElem?_set, if_pos rfl]
        split
        · rfl
        · rfl
      · exact hd.put hm

theorem Dead.go {connects : Option Nat} {pc : Pc} (hi : Inv cfg s pc.owns pc.adds pc.subs)
    (hd : Dead id n s) (hs : s.go cfg connects pc = some s') : Dead id n s' := by
  have hother : ∀ m, m ∈ pc.owns → (m :: s.handouts).count id = n := by
    intro m hm
    obtain ⟨c, hc⟩ := Option.isSome_iff_exists.mp (hi.own_live hm).1
    rw [List.count_cons_of_ne (Ne.symm (hd.ne hc))]
    exact hd.count
  cases pc with
  | scanning now =>
      cases hs
      exact ⟨hd.made, hd.gone, hd.count⟩
  | dropping invalid ptr =>
      cases hs
      have hdead := hd.delete invalid
      exact ⟨hdead.made, hdead.gone, hdead.count⟩
  | subtracting k ptr =>
      cases ptr with
      | some m =>
          cases hs
          exact ⟨hd.made, hd.gone, hother m (List.mem_singleton.mpr rfl)⟩
      | none =>
          cases hs
          exact ⟨hd.made, hd.gone, hd.count⟩
  | connecting =>
      cases connects with
      | none =>
          cases hs
          exact hd
      | some now =>
          simp only [State.go] at hs
          split at hs
          · cases hs
          · cases hs
            refine ⟨?_, ?_, hd.count⟩
            · show id < (s.heap ++ [some (HttpConnection.new now)]).length
              rw [List.length_append]
              exact Nat.lt_add_right _ hd.made
            · refine (conn?_make s (.new now) id).trans ?_
              rw [if_neg (Nat.ne_of_lt hd.made)]
              exact hd.gone
  | counting m =>
      cases hs
      exact ⟨hd.made, hd.gone, hother m (List.mem_singleton.mpr rfl)⟩
  | uncounting =>
      cases hs
      exact ⟨hd.made, hd.gone, hd.count⟩
  | pushing m =>
      cases hs
      exact ⟨hd.made, hd.gone, hd.count⟩

theorem Dead.step (hi : Inv cfg s [] 0 0) (hd : Dead id n s)
    (hs : step cfg buff s a = some s') : Dead id n s' := by
  rcases step_cases hs with ⟨now, -, -, rfl⟩ | ⟨i, connects, pc, -, hpc, hgo⟩ |
    ⟨m, c, -, hc, rfl⟩ | ⟨m, c, c', now, -, -, -, hc, rfl⟩
  · exact ⟨hd.made, hd.gone, hd.count⟩
  · exact Dead.go (hi.take hpc) ⟨hd.made, hd.gone, hd.count⟩ hgo
  · exact hd.put (hd.ne hc)
  · rw [State.release]
    dsimp only
    split
    · have hput := hd.put (o := none) (hd.ne hc)
      exact ⟨hput.made, hput.gone, hput.count⟩
    · have hput := hd.put (o := some { c' with request := c'.request + 1 }) (hd.ne hc)
      exact ⟨hput.made, hput.gone, hput.count⟩

theorem dead_run {acts : List Act} (hi : Inv cfg s [] 0 0) (hd : Dead id n s)
    (hrun : run (Pool.step cfg buff) s acts = some s') : Dead id n s' := by
  have hstep : ∀ s a s', Inv cfg s [] 0 0 ∧ Dead id n s → Pool.step cfg buff s a = some s' →
      Inv cfg s' [] 0 0 ∧ Dead id n s' :=
    fun _ _ _ h hs => ⟨h.1.step hs, h.2.step h.1 hs⟩
  exact (run_invariant' hstep ⟨hi, hd⟩ hrun).2

/-- The connections that are not yet added to `m_total`. -/
def Pc.newcomer : Pc → List ConnId
  | counting id => [id]
  | _ => []

theorem newcomer_count (calls : List Pc) :
    (calls.flatMap Pc.newcomer).length = (calls.map Pc.adds).sum ∧
      ∀ id, (calls.flatMap Pc.newcomer).count id ≤ (calls.flatMap Pc.owns).count id := by
  induction calls with
  | nil => exact ⟨rfl, fun _ => Nat.le_refl 0⟩
  | cons pc calls ih =>
      obtain ⟨hlen, hcount⟩ := ih
      rw [List.flatMap_cons, List.flatMap_cons, List.map_cons, List.sum_cons, List.length_append,
        hlen]
      refine ⟨?_, ?_⟩
      · cases pc <;> rfl
      · intro id
        have hpc : pc.newcomer.count id ≤ pc.owns.count id := by
          cases pc <;> first | exact Nat.le_refl _ | exact Nat.zero_le _
        rw [List.count_append, List.count_append]
        exact Nat.add_le_add hpc (hcount id)

/-- `m_total` counts the live connections but for the newcomers. -/
theorem Inv.total_nonneg (hi : Inv cfg s [] 0 0) : 0 ≤ s.total := by
  obtain ⟨hlen, hcount⟩ := newcomer_count s.calls
  have hone : ∀ id, (s.calls.flatMap Pc.newcomer).count id ≤ if s.Live id then 1 else 0 := by
    intro id
    rw [← hi.placed id, State.places, State.limbo, List.count_nil]
    have := hcount id
    omega
  have hnodup : (s.calls.flatMap Pc.newcomer).Nodup := by
    apply List.nodup_iff_count_le_one.mpr
    intro id
    have := hone id
    split at this <;> omega
  have hlive : ∀ id ∈ s.calls.flatMap Pc.newcomer, s.Live id := by
    intro id hid
    have hpos := List.count_pos_iff.mpr hid
    have := hone id
    split at this
    · assumption
    · omega
  have hcounted := hi.counted
  have hless := (delete_heap hnodup hlive).2
  rw [hlen] at hless
  omega

/-- **Ownership.** Whatever calls run at the same time, whatever connections
they find connected and whichever connects fail: a live connection is idle,
handed out once, or in the hands of one call in progress, and a deleted one
is nowhere; between calls `m_total` is the number of live connections, and it
is never negative; a deleted connection is not returned again; and none is
returned more than `max(1, m_maxRequest)` times. -/
theorem connections_owned {acts : List Act} (hrun : run (Pool.step cfg buff) {} acts = some s) :
    (∀ id, s.conns.count id + s.held.count id + s.limbo.count id =
      if s.Live id then 1 else 0) ∧
      (s.calls = [] → s.limbo = [] ∧ s.total = s.liveCount) ∧ 0 ≤ s.total ∧
      (∀ id acts' s', id < s.heap.length → ¬s.Live id →
        run (Pool.step cfg buff) s acts' = some s' →
        ¬s'.Live id ∧ s'.handouts.count id = s.handouts.count id) ∧
      ∀ id, s.handouts.count id ≤ max 1 cfg.maxRequest := by
  have hi := inv_run hrun
  refine ⟨hi.placed, ?_, ?_, ?_, hi.limited⟩
  · intro hcalls
    have hcounted := hi.counted
    rw [State.limbo, hcalls]
    rw [hcalls] at hcounted
    exact ⟨rfl, by simpa using hcounted⟩
  · exact hi.total_nonneg
  · intro id acts' s' hmade hdead hrun'
    have hgone : s.conn? id = none := Option.not_isSome_iff_eq_none.mp hdead
    have hd := dead_run hi ⟨hmade, hgone, rfl⟩ hrun'
    refine ⟨?_, hd.count⟩
    rw [State.Live, hd.gone]
    exact Bool.false_ne_true

/-- A connection is returned, released and returned again while another call
fails to connect. -/
def reuse : List Act :=
  [.getConnection 100000, .go 0 none, .go 0 none, .go 0 none, .go 0 (some 100000), .go 0 none,
   .release 0 100001, .getConnection 100002, .go 0 none, .go 0 none, .go 0 none, .go 0 none,
   .go 0 none, .getConnection 100003, .go 0 none, .go 0 none, .go 0 none]

theorem reuse_owned :
    ∃ s, run (Pool.step ⟨1000, 5⟩ ⟨100, by decide, by decide⟩) {} reuse = some s ∧
      s.total = s.liveCount ∧ s.handouts.count 0 ≤ max 1 5 := by
  have hruns : (run (Pool.step ⟨1000, 5⟩ ⟨100, by decide, by decide⟩) {} reuse).map State.calls =
      some [] := by decide +kernel
  obtain ⟨s, hrun, hcalls⟩ := Option.map_eq_some_iff.mp hruns
  obtain ⟨-, htotal, -, -, hlimit⟩ := connections_owned hrun
  exact ⟨s, hrun, (htotal hcalls).2, hlimit 0⟩

end Runs

end Hps.Pool
