import Hps.Hook.Model

/-!
# Hook — the mode of a managed socket

A socket with an `FdCtx` stays non-blocking in the kernel, whatever mode its
user asks for: `fcntl` puts the flag back before it passes the mode on.
`ioctl` does not, so that exactly the calls of `FIONBIO` with 0 switch the
kernel flag off (`mode_kept_iff`).
-/

namespace Hps.Hook

/-! ## One flag -/

theorem asksNonblock_eq (x : Flags) : asksNonblock x = x.getLsbD 11 := by
  have h : O_NONBLOCK = BitVec.twoPow 32 11 := by decide
  rw [asksNonblock, h, BitVec.and_twoPow]
  cases x.getLsbD 11 <;> decide

theorem O_NONBLOCK_bit : O_NONBLOCK.getLsbD 11 = true := by decide

theorem setflMask_bit : setflMask.getLsbD 11 = true := by decide

@[simp] theorem asksNonblock_or (x : Flags) :
    asksNonblock (x ||| O_NONBLOCK) = true := by
  rw [asksNonblock_eq, BitVec.getLsbD_or, O_NONBLOCK_bit, Bool.or_true]

@[simp] theorem asksNonblock_and_not (x : Flags) :
    asksNonblock (x &&& ~~~O_NONBLOCK) = false := by
  rw [asksNonblock_eq, BitVec.getLsbD_and, BitVec.getLsbD_not, O_NONBLOCK_bit]
  simp

/-- `F_SETFL` sets the flag as its argument has it. -/
@[simp] theorem asksNonblock_setfl (x arg : Flags) :
    asksNonblock ((x &&& ~~~setflMask) ||| (arg &&& setflMask)) = asksNonblock arg := by
  simp only [asksNonblock_eq, BitVec.getLsbD_or, BitVec.getLsbD_and,
    BitVec.getLsbD_not, setflMask_bit]
  simp

/-! ## Lookups -/

section Lookup

variable {s : State} {fd : Nat} {c : FdCtx} {f : File} {k : Kernel}

theorem FdManager.get_store (m : FdManager) (fd : Nat) (ctx : Option FdCtx) (n : Nat) :
    (m.store fd ctx).get n = if n = fd then ctx else m.get n := by
  have hfd : fd < (growTo fd m.datas).length := (length_growTo m.large).1
  rw [FdManager.get, FdManager.store, List.getElem?_set]
  by_cases h : fd = n
  · subst h
    rw [if_pos rfl, if_pos hfd, if_pos rfl]
    rfl
  · rw [if_neg h, if_neg (Ne.symm h), getElem?_growTo, FdManager.get]

theorem FdManager.get_del (m : FdManager) (fd n : Nat) :
    (m.del fd).get n = if n = fd then none else m.get n := by
  rw [FdManager.get, FdManager.del, List.getElem?_set]
  by_cases h : fd = n
  · subst h
    rw [if_pos rfl, if_pos rfl]
    split <;> rfl
  · rw [if_neg h, if_neg (Ne.symm h)]
    rfl

theorem Kernel.files_put (fd : Nat) (g : Option File) (n : Nat) :
    (k.put fd g).files n = if n = fd then g else k.files n := rfl

@[simp] theorem State.ctx_setCtx : (s.setCtx fd c).ctx fd = some c := by
  rw [State.ctx, State.setCtx, FdManager.get_store, if_pos rfl]

@[simp] theorem State.file_setCtx (n : Nat) : (s.setCtx fd c).file n = s.file n := rfl

theorem State.managed_of (h : s.ctx fd = some c) (hs : c.isSocket = true)
    (hc : c.isClosed = false) : s.managed fd = some c := by
  rw [State.managed, h, Option.filter_some, hs, hc]
  rfl

end Lookup

/-! ## A managed socket -/

/-- The descriptor is a socket with a context whose user asked for the mode;
`nonblock` is what the kernel has. -/
def Mode (s : State) (fd : Nat) (asked nonblock : Bool) : Prop :=
  ∃ c f, s.ctx fd = some c ∧ s.file fd = some f ∧ c.isSocket = true ∧
    c.isClosed = false ∧ c.sysNonblock = true ∧ c.userNonblock = asked ∧
    f.nonblock = nonblock

/-- The mode a call asks for. -/
def Control.asks : Control → Option Bool
  | .setfl arg => some (asksNonblock arg)
  | .fionbio flag => some (flag != 0)
  | _ => none

/-- The mode the user asked for last; a new socket blocks. -/
def lastAsked (calls : List Control) : Bool :=
  calls.foldl (fun asked call => call.asks.getD asked) false

/-- What a call leaves of the kernel's flag. -/
def Control.leaves (nonblock : Bool) : Control → Bool
  | .setfl _ => true
  | .fionbio flag => flag != 0
  | _ => nonblock

/-- **One call**: the user's mode is the one it asks for, and the kernel's
flag is set but behind `FIONBIO` with 0. -/
theorem control_mode {s : State} {fd : Nat} {asked nonblock : Bool}
    (h : Mode s fd asked nonblock) (call : Control) :
    Mode (s.control fd call) fd (call.asks.getD asked) (call.leaves nonblock) := by
  obtain ⟨c, f, hctx, hfile, hsock, hopen, hsys, huser, hkern⟩ := h
  have hm := State.managed_of hctx hsock hopen
  cases call with
  | getfl => exact ⟨c, f, hctx, hfile, hsock, hopen, hsys, huser, hkern⟩
  | sockopt => exact ⟨c, f, hctx, hfile, hsock, hopen, hsys, huser, hkern⟩
  | timeout type sec usec =>
      refine ⟨c.setTimeout type (UInt64.ofInt (sec * 1000 + usec.tdiv 1000)), f,
        ?_, ?_, ?_⟩
      · simp only [State.control, State.setsockoptTimeout, hctx, State.ctx_setCtx]
      · simp only [State.control, State.setsockoptTimeout, hctx, State.file_setCtx,
          hfile]
      · cases type <;> exact ⟨hsock, hopen, hsys, huser, hkern⟩
  | setfl arg =>
      have hf : s.kernel.files fd = some f := hfile
      refine ⟨{ c with userNonblock := asksNonblock arg },
        { f with flags := (f.flags &&& ~~~setflMask) |||
          ((arg ||| O_NONBLOCK) &&& setflMask) }, ?_, ?_, hsock, hopen, hsys, rfl, ?_⟩
      · simp only [State.control, State.fcntlSetfl, hm]
        exact State.ctx_setCtx
      · simp only [State.control, State.fcntlSetfl, hm, hsys, if_true, State.file,
          State.setCtx, Kernel.setfl, hf, Kernel.files_put]
      · simp [File.nonblock, Control.leaves]
  | fionbio flag =>
      have hf : s.kernel.files fd = some f := hfile
      refine ⟨{ c with userNonblock := flag != 0 },
        { f with flags := if flag = 0 then f.flags &&& ~~~O_NONBLOCK
          else f.flags ||| O_NONBLOCK }, ?_, ?_, hsock, hopen, hsys, rfl, ?_⟩
      · simp only [State.control, State.ioctlFionbio, hm]
        exact State.ctx_setCtx
      · simp only [State.control, State.ioctlFionbio, hm, State.file,
          State.setCtx, Kernel.fionbio, hf, Kernel.files_put, if_true]
      · rw [File.nonblock, Control.leaves]
        by_cases h0 : flag = 0
        · rw [if_pos h0, asksNonblock_and_not, h0]
          rfl
        · rw [if_neg h0, asksNonblock_or]
          exact (bne_iff_ne.mpr h0).symm

/-- The state after the calls. -/
def State.controls (s : State) (fd : Nat) (calls : List Control) : State :=
  calls.foldl (fun s call => s.control fd call) s

theorem controls_mode {s : State} {fd : Nat} {asked nonblock : Bool}
    (h : Mode s fd asked nonblock) (calls : List Control) :
    Mode (s.controls fd calls) fd
      (calls.foldl (fun asked call => call.asks.getD asked) asked)
      (calls.foldl Control.leaves nonblock) := by
  induction calls generalizing s asked nonblock with
  | nil => exact h
  | cons call calls ih => exact ih (control_mode h call)

/-- The context of a new socket: it is made non-blocking. -/
theorem getAutoCreate_new {s : State} {fd : Nat} {f : File}
    (hnew : s.ctx fd = none) (hfile : s.file fd = some f) (hsock : f.isSocket = true) :
    (s.getAutoCreate fd).ctx fd = some (.new s.kernel fd) ∧
      ∃ f', (s.getAutoCreate fd).file fd = some f' ∧ f'.serial = f.serial ∧
        f'.isSocket = true ∧ f'.nonblock = true := by
  have hfile' : s.kernel.files fd = some f := hfile
  have hget : s.getAutoCreate fd =
      { kernel := s.kernel.initSocket fd
        fdMgr := s.fdMgr.store fd (some (.new s.kernel fd)) } := by
    rw [State.getAutoCreate, hnew]
    rfl
  rw [hget]
  refine ⟨(FdManager.get_store _ _ _ _).trans (if_pos rfl), ?_⟩
  simp only [State.file, Kernel.initSocket, hfile']
  by_cases hnb : f.nonblock = true
  · rw [if_neg (by simp [hnb])]
    exact ⟨f, hfile', rfl, hsock, hnb⟩
  · rw [if_pos ⟨hsock, hnb⟩]
    simp only [Kernel.setfl, hfile', Kernel.files_put, if_true]
    exact ⟨_, rfl, rfl, hsock, by simp [File.nonblock]⟩

/-- A socket whose context was created by the call that opened it. -/
theorem mode_of_opened {s s₀ : State} {call : Call} {fd : Nat} {flags : Flags}
    {hook : Bool}
    (hcall : call = .socket true flags (some fd) ∨ call = .accept hook (some fd))
    (hnew : s.ctx fd = none) (hstep : step s call = some s₀) :
    Mode s₀ fd false true := by
  have key : ∀ fl : Flags, Mode ((s.openSocket fd fl).getAutoCreate fd) fd false
      true := by
    intro fl
    have hfile : (s.openSocket fd fl).kernel.files fd =
        some ⟨s.kernel.opened, true, fl⟩ := if_pos rfl
    obtain ⟨hctx, f, hf, -, -, hnb⟩ := getAutoCreate_new
      (s := s.openSocket fd fl) hnew hfile rfl
    exact ⟨_, f, hctx, hf, by simp [FdCtx.new, hfile, hnb]⟩
  rcases hcall with rfl | rfl
  · simp only [step] at hstep
    split at hstep
    · cases hstep
    · cases hstep
      exact key flags
  · simp only [step] at hstep
    split at hstep
    · cases hstep
    · cases hstep
      exact key 0

/-! ## Runs of calls -/

/-- The kernel's flag is set, the context says so, and `F_GETFL` reports the
mode that was asked for. -/
structure KeepsMode (s : State) (fd : Nat) (asked : Bool) : Prop where
  kernel : (s.file fd).map File.nonblock = some true
  sysNonblock : (s.ctx fd).map FdCtx.sysNonblock = some true
  reported : (s.fcntlGetfl fd).map asksNonblock = some asked

theorem keepsMode_iff {s : State} {fd : Nat} {asked nonblock : Bool}
    (h : Mode s fd asked nonblock) : KeepsMode s fd asked ↔ nonblock = true := by
  obtain ⟨c, f, hctx, hfile, hsock, hopen, hsys, huser, hkern⟩ := h
  have hm := State.managed_of hctx hsock hopen
  constructor
  · intro hk
    have := hk.kernel
    rw [hfile, Option.map_some, hkern] at this
    exact Option.some.inj this
  · intro hn
    refine ⟨by rw [hfile, Option.map_some, hkern, hn],
      by rw [hctx, Option.map_some, hsys], ?_⟩
    simp only [State.fcntlGetfl, hfile, hm, Option.map_some, huser]
    cases asked <;> simp

theorem leaves_eq_true {nonblock : Bool} {calls : List Control}
    (h : ∀ flag, .fionbio flag ∈ calls → flag ≠ 0) (hn : nonblock = true) :
    calls.foldl Control.leaves nonblock = true := by
  induction calls generalizing nonblock with
  | nil => exact hn
  | cons call calls ih =>
      apply ih fun flag hf => h flag (List.mem_cons_of_mem _ hf)
      cases call with
      | setfl arg => rfl
      | fionbio flag => simpa [Control.leaves] using h flag List.mem_cons_self
      | getfl => exact hn
      | timeout type sec usec => exact hn
      | sockopt => exact hn

/-- The mode is kept behind every one of the calls. -/
def KeepsModes (s₀ : State) (fd : Nat) (calls : List Control) : Prop :=
  ∀ pre, pre <+: calls → KeepsMode (s₀.controls fd pre) fd (lastAsked pre)

/-- **The mode of a managed socket is kept exactly if nobody calls `FIONBIO`
with 0.** -/
theorem mode_kept_iff {s s₀ : State} {call : Call} {fd : Nat} {flags : Flags}
    {hook : Bool}
    (hcall : call = .socket true flags (some fd) ∨ call = .accept hook (some fd))
    (hnew : s.ctx fd = none) (hstep : step s call = some s₀)
    (calls : List Control) :
    KeepsModes s₀ fd calls ↔ ∀ flag, .fionbio flag ∈ calls → flag ≠ 0 := by
  have hmode := controls_mode (mode_of_opened hcall hnew hstep)
  constructor
  · intro hkeep flag hmem h0
    subst h0
    obtain ⟨before, after, rfl⟩ := List.append_of_mem hmem
    have hpre : before ++ [.fionbio 0] <+: before ++ .fionbio 0 :: after :=
      ⟨after, by simp⟩
    have hk := (keepsMode_iff (hmode _)).mp (hkeep _ hpre)
    rw [List.foldl_append] at hk
    cases hk
  · intro hflags pre hpre
    refine (keepsMode_iff (hmode pre)).mpr (leaves_eq_true ?_ rfl)
    exact fun flag hf => hflags flag (hpre.subset hf)

/-- A user that switches a new socket to non-blocking and back. -/
def modeSwitches : List Control :=
  [.setfl O_NONBLOCK, .timeout .recv 5 0, .fionbio 1, .getfl, .setfl 0]

/-- The state behind the first socket of a process. -/
def firstSocket : State := (step {} (.socket true 0 (some 3))).getD {}

theorem modeSwitches_kept : KeepsModes firstSocket 3 modeSwitches := by
  refine (@mode_kept_iff {} firstSocket _ 3 0 true (.inl rfl) (by decide) rfl
    modeSwitches).mpr ?_
  intro flag hf
  simp only [modeSwitches, List.mem_cons, List.not_mem_nil] at hf
  rcases hf with h | h | h | h | h | h <;> cases h
  decide

/-- `FIONBIO` with 0 on a new socket: the kernel's flag is off. -/
theorem fionbio_zero_blocks : ¬∀ (s s₀ : State) (fd : Nat) (flags : Flags)
    (calls : List Control), s.ctx fd = none →
    step s (.socket true flags (some fd)) = some s₀ → KeepsModes s₀ fd calls := by
  intro h
  have hk := (h {} firstSocket 3 0 [.fionbio 0] (by decide) rfl _
    (List.prefix_refl _)).kernel
  have hoff : ((firstSocket.controls 3 [.fionbio 0]).file 3).map File.nonblock =
      some false := by decide
  rw [hk] at hoff
  cases hoff

end Hps.Hook
