import Hps.IOManager.Model
import Hps.Lib.Integers

/-!
# IOManager — the indices into the tables

`m_fdContexts` and `m_datas` are vectors indexed by a descriptor, an `int`
that the callers pass as it is; a closed `Socket` has -1. What guards an
access is a comparison with the size as an `int`, which says nothing about
the sign of the descriptor, and a growth to one and a half of it. A section
under the lock of a table is one step; `addEvent` and `get` may come back for
a second one, and other threads may have been there in between.
-/

namespace Hps.IOManager.Indexing

open Hps.Lib Hps.Lib.Integers

/-- The public calls that index a table. The events play no part. -/
inductive Call where
  | addEvent (fd : Int)
  | delEvent (fd : Int)
  | cancelEvent (fd : Int)
  | cancelAll (fd : Int)
  | get (fd : Int) (autoCreate : Bool)
  | del (fd : Int)
deriving DecidableEq, Repr

/-- What the four calls of a `Socket` do with its `m_sock`. -/
inductive SocketCall where
  | cancelRead
  | cancelWrite
  | cancelAccept
  | cancelAll
deriving DecidableEq, Repr

def SocketCall.call (sock : Int) : SocketCall → Call
  | .cancelRead | .cancelWrite | .cancelAccept => .cancelEvent sock
  | .cancelAll => .cancelAll sock

/-- Where a thread stands between two sections. -/
inductive Pc where
  | ready
  /-- `addEvent`, before the write lock. -/
  | grow (fd : Int)
  /-- `get`, before the write lock. -/
  | create (fd : Int)
deriving DecidableEq, Repr

structure State where
  /-- `m_fdContexts.size()` -/
  contexts : Nat := 32
  /-- `m_datas`: whether the pointers are set. -/
  datas : List Bool := List.replicate 64 false
  threads : Nat → Pc := fun _ => .ready

inductive Act where
  | call (t : Nat) (c : Call)
  /-- The second section of the call. -/
  | resume (t : Nat)
deriving DecidableEq, Repr

/-- `(int)size > fd` -/
def below (size : Nat) (fd : Int) : Bool := decide (fd < toInt size)

/-- `fd * 1.5` as a `size_t`. -/
def grown (fd : Int) : Nat := growTarget fd.toNat

/-- `if(fd >= (int)m_datas.size()) m_datas.resize(fd * 1.5)` -/
def resized (datas : List Bool) (fd : Int) : List Bool :=
  if below datas.length fd then datas
  else datas.take (grown fd) ++ List.replicate (grown fd - datas.length) false

namespace State

def setPc (s : State) (t : Nat) (pc : Pc) : State :=
  { s with threads := Function.update s.threads t pc }

/-- The first section of a call. -/
def call (s : State) (t : Nat) : Call → State
  | .addEvent fd => if below s.contexts fd then s else s.setPc t (.grow fd)
  | .delEvent _ | .cancelEvent _ | .cancelAll _ => s
  | .get fd autoCreate =>
      if fd = -1 then s
      else if below s.datas.length fd then
        if s.datas.getD fd.toNat false || !autoCreate then s else s.setPc t (.create fd)
      else if autoCreate then s.setPc t (.create fd) else s
  | .del fd =>
      if below s.datas.length fd then { s with datas := s.datas.set fd.toNat false } else s

end State

def step (s : State) : Act → Option State
  | .call t c => if s.threads t = .ready then some (s.call t c) else none
  | .resume t =>
      match s.threads t with
      | .ready => none
      | .grow fd => some ({ s with contexts := grown fd }.setPc t .ready)
      | .create fd =>
          some ({ s with datas := (resized s.datas fd).set fd.toNat true }.setPc t .ready)

/-! ## Accesses -/

/-- A use of `[fd]` on a vector of `size` entries. -/
structure Access where
  fd : Int
  size : Nat
deriving DecidableEq, Repr

def Access.InRange (a : Access) : Prop := 0 ≤ a.fd ∧ a.fd < a.size

/-- An access behind the comparison with the size. -/
def guarded (size : Nat) (fd : Int) : List Access :=
  if below size fd then [⟨fd, size⟩] else []

def Call.accesses (s : State) : Call → List Access
  | .addEvent fd | .delEvent fd | .cancelEvent fd | .cancelAll fd => guarded s.contexts fd
  | .get fd _ => if fd = -1 then [] else guarded s.datas.length fd
  | .del fd => guarded s.datas.length fd

/-- The accesses of a section, with the sizes they meet. -/
def accesses (s : State) : Act → List Access
  | .call t c => if s.threads t = .ready then c.accesses s else []
  | .resume t =>
      match s.threads t with
      | .ready => []
      | .grow fd => [⟨fd, grown fd⟩]
      | .create fd => [⟨fd, (resized s.datas fd).length⟩]

/-- Every access of the section is in range. -/
def InRange (s : State) (a : Act) : Prop := ∀ x ∈ accesses s a, x.InRange

/-! ## What the guards leave out -/

/-- The comparison lets no negative descriptor pass that it meets. -/
def Passes (size : Nat) (fd : Int) : Prop := below size fd = true → 0 ≤ fd

def Call.Admitted (s : State) : Call → Prop
  | .addEvent fd | .delEvent fd | .cancelEvent fd | .cancelAll fd => Passes s.contexts fd
  | .get fd _ => fd = -1 ∨ Passes s.datas.length fd
  | .del fd => Passes s.datas.length fd

/-- No negative descriptor passes a comparison, and none below 2 makes a
table grow. -/
def Admitted (s : State) : Act → Prop
  | .call t c => s.threads t = .ready → c.Admitted s
  | .resume t =>
      match s.threads t with
      | .ready => True
      | .grow fd => 2 ≤ fd
      | .create fd => if below s.datas.length fd then 0 ≤ fd else 2 ≤ fd

section Guards

variable {size : Nat} {fd : Int}

/-- What is below the size as an `int` is below the size. -/
theorem lt_of_below (h : below size fd = true) : fd < size := by
  have hlt : fd < toInt size := by simpa [below] using h
  have hle := @toInt_natCast_le size
  omega

/-- As long as the size fits an `int`, the comparison is one with the size. -/
theorem below_iff (h : size < 2 ^ 31) : below size fd = true ↔ fd < size := by
  rw [below, toInt_eq_self (by omega) (by omega), decide_eq_true_iff]

theorem guarded_inRange_iff :
    (∀ x ∈ guarded size fd, x.InRange) ↔ Passes size fd := by
  rw [guarded, Passes]
  split
  · rename_i h
    have hlt := lt_of_below h
    simp only [List.mem_singleton, forall_eq, Access.InRange, h, true_implies]
    omega
  · simp_all

/-- The growth makes room for every descriptor but 0 and 1. -/
theorem grown_inRange_iff : Access.InRange ⟨fd, grown fd⟩ ↔ 2 ≤ fd := by
  rw [Access.InRange, grown, growTarget]
  dsimp only
  omega

theorem length_resized (datas : List Bool) (fd : Int) : (resized datas fd).length =
    if below datas.length fd then datas.length else grown fd := by
  rw [resized]
  split
  · rfl
  · rw [List.length_append, List.length_take, List.length_replicate]
    omega

theorem resized_inRange_iff (datas : List Bool) (fd : Int) :
    Access.InRange ⟨fd, (resized datas fd).length⟩ ↔
      if below datas.length fd then 0 ≤ fd else 2 ≤ fd := by
  rw [length_resized]
  split
  · rename_i h
    have hlt := lt_of_below h
    rw [Access.InRange]
    dsimp only
    omega
  · exact grown_inRange_iff

theorem Call.inRange_iff (s : State) (c : Call) :
    (∀ x ∈ c.accesses s, x.InRange) ↔ c.Admitted s := by
  cases c with
  | addEvent fd => exact guarded_inRange_iff
  | delEvent fd => exact guarded_inRange_iff
  | cancelEvent fd => exact guarded_inRange_iff
  | cancelAll fd => exact guarded_inRange_iff
  | get fd autoCreate =>
      rw [accesses, Admitted]
      split
      · simp_all
      · rename_i hfd
        rw [guarded_inRange_iff, or_iff_right hfd]
  | del fd => exact guarded_inRange_iff

/-- One section. -/
theorem inRange_iff_admitted (s : State) (a : Act) : InRange s a ↔ Admitted s a := by
  cases a with
  | call t c =>
      rw [InRange, accesses, Admitted]
      split
      · rename_i h
        rw [c.inRange_iff s]
        simp [h]
      · simp_all
  | resume t =>
      rw [InRange, accesses, Admitted]
      cases ht : s.threads t with
      | ready => simp
      | grow fd => simpa using grown_inRange_iff
      | create fd => simpa using resized_inRange_iff s.datas fd

end Guards

/-! ## Descriptors the tables have room for -/

/-- The largest descriptor whose growth fits an `int`. -/
def maxFd : Int := 1431655765

def Call.fd : Call → Int
  | .addEvent fd | .delEvent fd | .cancelEvent fd | .cancelAll fd | .get fd _ | .del fd => fd

/-- The call is made on a descriptor that is not negative, or it is a `get`
of -1. -/
def Call.Descriptor : Call → Prop
  | .get fd _ => fd = -1 ∨ 0 ≤ fd
  | c => 0 ≤ c.fd

/-- The call that is made is made on a descriptor. -/
def Descriptor (s : State) : Act → Prop
  | .call t c => s.threads t = .ready → c.Descriptor
  | .resume _ => True

def Act.Small : Act → Prop
  | .call _ c => c.fd ≤ maxFd
  | .resume _ => True

instance : (c : Call) → Decidable c.Descriptor
  | .get _ _ => inferInstanceAs (Decidable (_ ∨ _))
  | .addEvent _ | .delEvent _ | .cancelEvent _ | .cancelAll _ | .del _ =>
      inferInstanceAs (Decidable (_ ≤ _))

instance (s : State) : (a : Act) → Decidable (Descriptor s a)
  | .call _ _ => inferInstanceAs (Decidable (_ → _))
  | .resume _ => isTrue trivial

instance : (a : Act) → Decidable a.Small
  | .call _ _ => inferInstanceAs (Decidable (_ ≤ _))
  | .resume _ => isTrue trivial

/-- The sizes fit an `int`, and a thread between two sections has found its
descriptor above the size or its entry empty. -/
structure Sized (s : State) : Prop where
  contexts : 2 ≤ s.contexts ∧ s.contexts < 2 ^ 31
  datas : 2 ≤ s.datas.length ∧ s.datas.length < 2 ^ 31
  grow : ∀ t fd, s.threads t = .grow fd → 2 ≤ fd ∧ fd ≤ maxFd
  create : ∀ t fd, s.threads t = .create fd → 0 ≤ fd ∧ fd ≤ maxFd

section Sized

variable {s s' : State}

theorem setPc_self (s : State) (t : Nat) (pc : Pc) : (s.setPc t pc).threads t = pc :=
  Function.update_self ..

theorem setPc_other (s : State) {t u : Nat} (h : u ≠ t) (pc : Pc) :
    (s.setPc t pc).threads u = s.threads u :=
  Function.update_of_ne h ..

theorem Sized.setPc (h : Sized s) (t : Nat) {pc : Pc}
    (hgrow : ∀ fd, pc = .grow fd → 2 ≤ fd ∧ fd ≤ maxFd)
    (hcreate : ∀ fd, pc = .create fd → 0 ≤ fd ∧ fd ≤ maxFd) : Sized (s.setPc t pc) := by
  refine ⟨h.contexts, h.datas, fun u fd hu => ?_, fun u fd hu => ?_⟩
  · by_cases hut : u = t
    · rw [hut, setPc_self] at hu
      exact hgrow fd hu
    · rw [setPc_other s hut] at hu
      exact h.grow u fd hu
  · by_cases hut : u = t
    · rw [hut, setPc_self] at hu
      exact hcreate fd hu
    · rw [setPc_other s hut] at hu
      exact h.create u fd hu

/-- A descriptor at or above a size that fits an `int` is not 0 or 1. -/
theorem two_le_of_not_below {size : Nat} {fd : Int} (hsize : 2 ≤ size ∧ size < 2 ^ 31)
    (h : ¬below size fd = true) : 2 ≤ fd := by
  rw [below_iff hsize.2] at h
  omega

theorem two_le_or {size : Nat} {fd : Int} (hsize : 2 ≤ size ∧ size < 2 ^ 31)
    (h : 0 ≤ fd) : if below size fd then 0 ≤ fd else 2 ≤ fd := by
  split
  · exact h
  · exact two_le_of_not_below hsize ‹_›

theorem grown_bounds {fd : Int} (h : 2 ≤ fd ∧ fd ≤ maxFd) :
    2 ≤ grown fd ∧ grown fd < 2 ^ 31 := by
  rw [maxFd] at h
  rw [grown, growTarget]
  omega

theorem Sized.call (h : Sized s) (t : Nat) {c : Call} (hd : c.Descriptor)
    (hsmall : c.fd ≤ maxFd) : Sized (s.call t c) := by
  cases c with
  | addEvent fd =>
      rw [State.call]
      split
      · exact h
      · refine h.setPc t (fun fd' e => ?_) nofun
        cases e
        exact ⟨two_le_of_not_below h.contexts ‹_›, hsmall⟩
  | delEvent fd => exact h
  | cancelEvent fd => exact h
  | cancelAll fd => exact h
  | get fd autoCreate =>
      rw [State.call]
      split
      · exact h
      · rename_i hfd
        have hcreate : Sized (s.setPc t (.create fd)) := by
          refine h.setPc t nofun fun fd' e => ?_
          cases e
          exact ⟨hd.resolve_left hfd, hsmall⟩
        split
        · split
          · exact h
          · exact hcreate
        · split
          · exact hcreate
          · exact h
  | del fd =>
      rw [State.call]
      split
      · refine ⟨h.contexts, ?_, h.grow, h.create⟩
        rw [List.length_set]
        exact h.datas
      · exact h

theorem Sized.step (h : Sized s) {a : Act} (hd : Descriptor s a) (hsmall : a.Small)
    (hs : Indexing.step s a = some s') : Sized s' := by
  cases a with
  | call t c =>
      rw [Indexing.step] at hs
      split at hs
      · rename_i ht
        cases hs
        exact h.call t (hd ht) hsmall
      · cases hs
  | resume t =>
      rw [Indexing.step] at hs
      split at hs
      · cases hs
      · rename_i fd ht
        cases hs
        have hgrown : Sized { s with contexts := grown fd } :=
          ⟨grown_bounds (h.grow t fd ht), h.datas, h.grow, h.create⟩
        exact hgrown.setPc t nofun nofun
      · rename_i fd ht
        cases hs
        have hstored : Sized { s with datas := (resized s.datas fd).set fd.toNat true } := by
          refine ⟨h.contexts, ?_, h.grow, h.create⟩
          rw [List.length_set, length_resized]
          split
          · exact h.datas
          · exact grown_bounds ⟨two_le_of_not_below h.datas ‹_›, (h.create t fd ht).2⟩
        exact hstored.setPc t nofun nofun

/-- Below a size that fits an `int`, the comparison lets every negative
descriptor pass. -/
theorem passes_iff {size : Nat} (h : size < 2 ^ 31) (fd : Int) : Passes size fd ↔ 0 ≤ fd := by
  rw [Passes, below_iff h]
  omega

theorem Sized.admitted_iff (h : Sized s) (a : Act) : Admitted s a ↔ Descriptor s a := by
  cases a with
  | call t c =>
      refine imp_congr_right fun _ => ?_
      cases c with
      | addEvent fd => exact passes_iff h.contexts.2 fd
      | delEvent fd => exact passes_iff h.contexts.2 fd
      | cancelEvent fd => exact passes_iff h.contexts.2 fd
      | cancelAll fd => exact passes_iff h.contexts.2 fd
      | get fd autoCreate => exact or_congr_right (passes_iff h.datas.2 fd)
      | del fd => exact passes_iff h.datas.2 fd
  | resume t =>
      rw [Admitted, Descriptor, iff_true]
      cases ht : s.threads t with
      | ready => trivial
      | grow fd => exact (h.grow t fd ht).1
      | create fd =>
          exact two_le_or h.datas (h.create t fd ht).1

end Sized

theorem sized_init : Sized {} := by
  have hcontexts : 2 ≤ 32 ∧ 32 < 2 ^ 31 := by omega
  have hdatas : 2 ≤ 64 ∧ 64 < 2 ^ 31 := by omega
  exact ⟨hcontexts, hdatas, nofun, nofun⟩

/-- In a run with descriptors up to `maxFd` the guards suffice exactly if no
other number is passed. -/
theorem admitted_iff_descriptor {as : List Act} (hsmall : ∀ a ∈ as, a.Small) :
    Meets step Admitted {} as ↔ Meets step Descriptor {} as := by
  constructor
  · intro h
    refine (h.and_forall hsmall).imp (fun s a s' hi hok hs => ?_)
      (fun s a hi hok => (hi.admitted_iff a).mp hok.1) sized_init
    exact hi.step ((hi.admitted_iff a).mp hok.1) hok.2 hs
  · intro h
    refine (h.and_forall hsmall).imp (fun s a s' hi hok hs => ?_)
      (fun s a hi hok => (hi.admitted_iff a).mpr hok.1) sized_init
    exact hi.step hok.1 hok.2 hs

/-- **The indices are in range exactly if the callers pass descriptors.** For
every interleaving of the sections of any calls: every access has an index
between 0 and the size minus one if and only if no negative number passes a
comparison with a size, and none below 2 is taken for one that its table has
to grow for. Up to `maxFd`, where the sizes fit an `int`, that is: if and only
if no call is made on a negative number, but for a `get` of -1. -/
theorem indices_inRange_iff (as : List Act) :
    (Meets step InRange {} as ↔ Meets step Admitted {} as) ∧
      ((∀ a ∈ as, a.Small) →
        (Meets step InRange {} as ↔ Meets step Descriptor {} as)) := by
  have hguards : Meets step InRange {} as ↔ Meets step Admitted {} as :=
    Meets.congr (fun _ _ _ _ _ _ => trivial) (fun s a (_ : True) => inRange_iff_admitted s a)
      trivial
  exact ⟨hguards, fun hsmall => hguards.trans (admitted_iff_descriptor hsmall)⟩

/-- A socket whose tables have to grow, cancelled by another thread. -/
def ordinaryCalls : List Act :=
  [.call 0 (.get 70 true), .resume 0, .call 0 (.addEvent 70), .call 1 (.cancelAll 70),
   .resume 0, .call 1 (SocketCall.cancelAll.call 70), .call 1 (.get (-1) false),
   .call 0 (.del 70)]

theorem ordinaryCalls_inRange : Meets step InRange {} ordinaryCalls :=
  ((indices_inRange_iff ordinaryCalls).2 (by decide)).mpr (by decide +kernel)

/-- The `cancelAll` of a socket that was never opened. -/
theorem closedSocket_not_inRange :
    ¬Meets step InRange {} [.call 0 (SocketCall.cancelAll.call (-1))] := by
  intro h
  have hx : accesses {} (.call 0 (SocketCall.cancelAll.call (-1))) = [⟨-1, 32⟩] := by
    decide +kernel
  have hr := h.1
  rw [InRange, hx] at hr
  exact absurd (hr _ List.mem_cons_self).1 (by decide)

end Hps.IOManager.Indexing
