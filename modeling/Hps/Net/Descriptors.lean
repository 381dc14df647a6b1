import Mathlib.Data.Set.Insert
import Hps.Hook.Contexts
import Hps.Net.Sockets

/-!
# Net — the descriptors of sockets

A `Socket` opens a descriptor in `bind`, `connect` or `CreateUDP`, is given one
by `accept`, and closes it in `close`, in its destructor or when it does not
connect. In every run each call is made on the descriptor of its own socket, and
the open descriptors are those that sockets have (`descriptors_owned`).
-/

namespace Hps.Net.Descriptors

open Hps.Lib

/-! ## The kernel's contexts -/

/-- Every context is that of a socket that is not marked as closed. -/
def SocketContexts (s : Hook.State) : Prop :=
  ∀ fd c, s.ctx fd = some c → c.isSocket = true ∧ c.isClosed = false

section Kernel

variable {s s' : Hook.State} {fd : Nat}

theorem isSome_getAutoCreate (n : Nat) :
    ((s.getAutoCreate fd).file n).isSome = (s.file n).isSome := by
  have h : ((s.getAutoCreate fd).file n).map Hook.File.serial =
      (s.file n).map Hook.File.serial := Hook.serial_getAutoCreate n
  rw [← Option.isSome_map (f := Hook.File.serial), h, Option.isSome_map]

theorem socketContexts_getAutoCreate (h : SocketContexts s) (hfile : (s.file fd).any (·.isSocket)) :
    SocketContexts (s.getAutoCreate fd) := by
  intro n c hc
  rw [Hook.ctx_getAutoCreate] at hc
  split at hc
  · cases hc
    exact ⟨hfile, rfl⟩
  · exact h n c hc

variable {c : Hook.Call}

theorem socketContexts_step (h : SocketContexts s) (hs : Hook.step s c = some s') :
    SocketContexts s' := by
  rcases Hook.step_cases hs with ⟨fl, fd, rfl, rfl⟩ | ⟨fl, fd, -, rfl⟩ |
    ⟨hook, fd, rfl, -, hctx⟩ | ⟨-, -, rfl⟩
  · exact h
  · refine socketContexts_getAutoCreate h ?_
    rw [Hook.file_openSocket, if_pos rfl]
    rfl
  · intro n c hc
    rw [hctx n] at hc
    split at hc
    · cases hc
    · exact h n c hc
  · exact h

theorem kernel_close {hook : Bool} (hs : Hook.step s (.close hook fd) = some s') :
    s'.kernel = s.kernel.close fd := by
  cases hs
  cases hook
  · rfl
  · simp only [if_true]
    split <;> rfl

theorem isSome_file_opened (fl : Hook.Flags) (n : Nat) :
    ((s.openSocket fd fl).file n).isSome ↔ (s.file n).isSome ∨ fd = n := by
  rw [Hook.file_openSocket]
  by_cases hn : n = fd
  · simp [hn]
  · simp [hn, Ne.symm hn]

/-- What is open behind a call. -/
theorem isSome_file_step (hs : Hook.step s c = some s') (n : Nat) :
    (s'.file n).isSome ↔
      (s.file n).isSome ∧ (∀ hook, c ≠ .close hook n) ∨ c.opens = some n := by
  cases c with
  | socket hook fl m =>
      cases m with
      | none =>
          cases hs
          simp [Hook.Call.opens]
      | some fd =>
          obtain ⟨-, hs⟩ := Option.ite_none_left_eq_some.mp hs
          cases hook <;> cases hs <;>
            simp [isSome_getAutoCreate, isSome_file_opened, Hook.Call.opens]
  | accept hook m =>
      cases m with
      | none =>
          cases hs
          simp [Hook.Call.opens]
      | some fd =>
          obtain ⟨-, hs⟩ := Option.ite_none_left_eq_some.mp hs
          cases hs
          simp [isSome_getAutoCreate, isSome_file_opened, Hook.Call.opens]
  | close hook fd =>
      rw [Hook.State.file, kernel_close hs, Hook.Kernel.close, Hook.Kernel.files_put]
      by_cases hn : n = fd
      · simp [Hook.Call.opens, hn]
      · simp [Hook.Call.opens, hn, Ne.symm hn, Hook.State.file]

/-- A number that a call opens was not open. -/
theorem file_of_opens (hs : Hook.step s c = some s') (ho : c.opens = some fd) :
    ¬(s.file fd).isSome := by
  cases c with
  | socket hook fl n | accept hook n =>
      cases ho
      simp only [Hook.step] at hs
      split at hs
      · cases hs
      · assumption
  | close hook n => cases ho

/-- A call leaves alone the contexts of the numbers it does not open or close. -/
theorem ctx_step (hs : Hook.step s c = some s') (hclose : ∀ hook, c ≠ .close hook fd)
    (hopens : c.opens ≠ some fd) : s'.ctx fd = s.ctx fd := by
  rcases Hook.step_cases hs with ⟨fl, n, rfl, rfl⟩ | ⟨fl, n, hc, rfl⟩ |
    ⟨hook, n, rfl, -, hctx⟩ | ⟨-, -, rfl⟩
  · rfl
  · have hn : fd ≠ n := by
      rintro rfl
      rcases hc with rfl | ⟨hook, rfl⟩ <;> exact hopens rfl
    rw [Hook.ctx_getAutoCreate, if_neg (fun h => hn h.1)]
    rfl
  · rw [hctx fd, if_neg]
    rintro ⟨-, rfl⟩
    exact hclose hook rfl
  · rfl

/-- A call goes through the hooks, or changes nothing. -/
theorem answer_cases {c : Sys} {r : c.Answer} (h : answer s c r = some s') :
    (∃ call, Hook.step s call = some s' ∧ call.opens = c.opens r ∧
      ∀ n, (∃ hook, call = .close hook n) ↔ c.closes ∧ c.target = some n) ∨
    (s' = s ∧ c.opens r = none ∧ ¬c.closes) := by
  cases c with
  | socket hook family type =>
      refine .inl ⟨.socket hook 0 r, h, rfl, fun n => ?_⟩
      simp [Sys.closes]
  | accept hook sock =>
      obtain ⟨-, hs⟩ := Option.ite_none_left_eq_some.mp h
      refine .inl ⟨.accept hook r, hs, rfl, fun n => ?_⟩
      simp [Sys.closes]
  | close hook fd =>
      refine .inl ⟨.close hook fd, h, rfl, fun n => ?_⟩
      simp [Sys.closes, Sys.target]
  | get fd =>
      obtain ⟨-, hs⟩ := Option.ite_none_right_eq_some.mp h
      exact .inr ⟨(Option.some.inj hs).symm, rfl, id⟩
  | ask q fd | getsockname fd | getpeername fd =>
      obtain ⟨-, hs⟩ := Option.ite_none_left_eq_some.mp h
      exact .inr ⟨(Option.some.inj hs).symm, rfl, id⟩
  | unlink path => exact .inr ⟨(Option.some.inj h).symm, rfl, id⟩

/-- The hooks and the kernel keep to what programs with handles rely on. -/
theorem kernel_lawful : kernel.Lawful SocketContexts where
  inv {s c r s'} hi h := by
    rcases answer_cases h with ⟨call, hs, -, -⟩ | ⟨rfl, -, -⟩
    · exact socketContexts_step hi hs
    · exact hi
  open_iff {s c r s'} n h := by
    rcases answer_cases h with ⟨call, hs, hopens, hclose⟩ | ⟨rfl, hopens, hclose⟩
    · have hstep := isSome_file_step hs n
      rw [hopens] at hstep
      refine hstep.trans (or_congr_left (and_congr_right fun _ => ?_))
      rw [← not_exists]
      exact not_congr (hclose n)
    · change (s'.file n).isSome ↔ (s'.file n).isSome ∧ ¬(c.closes ∧ c.target = some n) ∨
        c.opens r = some n
      simp [hopens, hclose]
  fresh {s c r s' n} h ho := by
    rcases answer_cases h with ⟨call, hs, hopens, -⟩ | ⟨-, hopens, -⟩
    · exact file_of_opens hs (hopens.trans ho)
    · have ho : c.opens r = some n := ho
      rw [hopens] at ho
      cases ho
  view_eq {s c r s' n} h hopen ht := by
    rcases answer_cases h with ⟨call, hs, hopens, hclose⟩ | ⟨rfl, -, -⟩
    · refine ctx_step hs (fun hook hc => ht ((hclose n).mp ⟨hook, hc⟩).2) fun ho => ?_
      exact file_of_opens hs ho hopen
    · rfl

end Kernel

/-! ## Programs -/

abbrev Safe {α : Type} (post : α → Set Nat → Prop) (p : Call α) (own : Set Nat)
    (s : Hook.State) : Prop :=
  kernel.Safe SocketContexts post p own s

section Programs

variable {α : Type} {post : α → Set Nat → Prop} {own : Set Nat} {s : Hook.State}

/-- A call that neither opens nor closes. -/
theorem safe_still {c : Sys} {k : c.Answer → Call α} (hopens : ∀ r, c.opens r = none)
    (hcloses : ¬c.closes) (ht : ∀ fd, c.target = some fd → fd ∈ own)
    (hk : ∀ r s', Safe post (k r) own s') : Safe post (sys c >>= k) own s := by
  refine ⟨ht, fun s₁ _ r s₂ _ => ?_⟩
  have hafter : kernel.after own c r = own := by
    ext fd
    change fd ∈ own ∧ ¬(c.closes ∧ c.target = some fd) ∨ c.opens r = some fd ↔ fd ∈ own
    simp [hopens r, hcloses]
  rw [hafter]
  exact hk r s₂

theorem safe_ask {q : Request} {fd : Option Nat} {k : Bool → Call α}
    (ht : ∀ n, fd = some n → n ∈ own) (hk : ∀ r s', Safe post (k r) own s') :
    Safe post (ask q fd >>= k) own s :=
  safe_still (fun _ => rfl) id ht hk

theorem safe_close {hook : Bool} {fd : Nat} {k : Unit → Call α} (ht : fd ∈ own)
    (hk : ∀ s', Safe post (k ()) (own \ {fd}) s') :
    Safe post (sys (.close hook fd) >>= k) own s := by
  refine ⟨fun n hn => ?_, fun s₁ _ r s₂ _ => ?_⟩
  · cases hn
    exact ht
  · have hafter : kernel.after own (.close hook fd) r = own \ {fd} := by
      ext n
      change n ∈ own ∧ ¬(True ∧ some fd = some n) ∨ none = some n ↔ n ∈ own ∧ n ∉ ({fd} : Set Nat)
      simp [eq_comm]
    rw [hafter]
    exact hk s₂

/-- The numbers that the socket has. -/
def Socket.owns (x : Socket) : Set Nat := {fd | x.sock = some fd}

theorem Socket.owns_none {x : Socket} (h : x.sock = none) : x.owns = ∅ := by
  ext fd
  change x.sock = some fd ↔ False
  simp [h]

/-- `socket` and `accept`, in a program that owns nothing. -/
theorem safe_open {c : Sys} {k : c.Answer → Call α} (ht : c.target = none)
    (hk : ∀ r s', Safe post (k r) {fd | c.opens r = some fd} s') :
    Safe post (sys c >>= k) ∅ s := by
  refine ⟨fun n hn => ?_, fun s₁ _ r s₂ _ => ?_⟩
  · change c.target = some n at hn
    rw [ht] at hn
    cases hn
  · have hafter : kernel.after ∅ c r = {fd | c.opens r = some fd} := by
      ext n
      change n ∈ (∅ : Set Nat) ∧ _ ∨ c.opens r = some n ↔ c.opens r = some n
      simp
    rw [hafter]
    exact hk r s₂

end Programs

/-! ## Methods -/

namespace Socket

/-- The session of a connected socket is over its own descriptor, and only an
`SSLSocket` has one. -/
def Coherent (x : Socket) : Prop :=
  (x.isConnected = true → x.sslSession = none ∨ x.sslSession = x.sock) ∧
    (x.ssl = false → x.sslSession = none)

variable {x : Socket} {s : Hook.State} {hook : Bool} {addr : Address}

theorem initSock_safe : Safe (fun _ own => own = x.owns) x.initSock x.owns s := by
  refine safe_ask (fun n hn => hn) fun _ s' => ?_
  split
  · exact safe_ask (fun n hn => hn) fun _ _ => rfl
  · rfl

theorem newSock_safe (h : x.sock = none) :
    Safe (fun y own => (∃ fd, y = { x with sock := fd }) ∧ own = y.owns) (x.newSock hook)
      x.owns s := by
  rw [owns_none h]
  refine safe_open rfl fun fd s' => ?_
  dsimp only
  split
  · refine (initSock_safe (x := { x with sock := fd })).bind fun _ own _ hown => ?_
    exact ⟨⟨fd, rfl⟩, hown⟩
  · exact ⟨⟨fd, rfl⟩, rfl⟩

theorem ready_safe : Safe (fun y own => (y = x ∨ x.sock = none ∧ ∃ fd, y = { x with sock := fd })
    ∧ own = y.owns) (x.ready hook) x.owns s := by
  rw [ready]
  split
  · exact ⟨.inl rfl, rfl⟩
  · rename_i h
    have hnone : x.sock = none := by simpa [isValid] using h
    exact (newSock_safe hnone).mono fun y own hy => ⟨.inr ⟨hnone, hy.1⟩, hy.2⟩

theorem getRemoteAddress_safe :
    Safe (fun y own => (∃ a, y = { x with remoteAddress := a }) ∧ own = x.owns)
      x.getRemoteAddress x.owns s := by
  rw [getRemoteAddress]
  split
  · exact ⟨⟨x.remoteAddress, rfl⟩, rfl⟩
  · exact safe_still (fun _ => rfl) id (fun n hn => hn) fun a _ => ⟨⟨a, rfl⟩, rfl⟩

theorem getLocalAddress_safe :
    Safe (fun y own => (∃ a, y = { x with localAddress := a }) ∧ own = x.owns)
      x.getLocalAddress x.owns s := by
  rw [getLocalAddress]
  split
  · exact ⟨⟨x.localAddress, rfl⟩, rfl⟩
  · exact safe_still (fun _ => rfl) id (fun n hn => hn) fun a _ => ⟨⟨a, rfl⟩, rfl⟩

theorem close_safe :
    Safe (fun y own => y = { x with isConnected := false, sock := none } ∧ own = ∅)
      (x.close hook) x.owns s := by
  rw [close]
  split
  · rename_i h
    obtain ⟨ssl, sock, family, type, isConnected, la, ra, sslSession⟩ := x
    simp only [isValid, Bool.and_eq_true, Bool.not_eq_true', Option.isSome_eq_false_iff,
      Option.isNone_iff_eq_none] at h
    obtain ⟨rfl, rfl⟩ := h
    exact ⟨rfl, owns_none rfl⟩
  · split
    · rename_i h
      refine ⟨?_, owns_none h⟩
      rw [← h]
    · rename_i fd h
      refine safe_close h fun _ => ⟨rfl, ?_⟩
      ext n
      change x.sock = some n ∧ n ∉ ({fd} : Set Nat) ↔ False
      simp [h, eq_comm]

theorem coherent_plain {x : Socket} (h : x.sslSession = none) : x.Coherent :=
  ⟨fun _ => .inl h, fun _ => h⟩

/-- A new descriptor is not that of an old session, for a socket that had none. -/
theorem Coherent.newSock (h : x.Coherent) (hnone : x.sock = none) (fd : Option Nat) :
    ({ x with sock := fd } : Socket).Coherent := by
  refine ⟨fun hc => ?_, h.2⟩
  obtain hssl | hssl := h.1 hc
  · exact .inl hssl
  · exact .inl (hssl.trans hnone)

theorem connectBase_safe (hx : x.Coherent) :
    Safe (fun r own => own = r.2.owns ∧ r.2.ssl = x.ssl ∧ (r.1 = false ∨ x.ssl = false →
      r.2.Coherent)) (x.connectBase hook addr) x.owns s := by
  refine ready_safe.bind fun y own s' hy => ?_
  obtain ⟨hy, rfl⟩ := hy
  have hkept : y.ssl = x.ssl ∧ y.Coherent := by
    obtain rfl | ⟨hnone, fd, rfl⟩ := hy
    · exact ⟨rfl, hx⟩
    · exact ⟨rfl, hx.newSock hnone fd⟩
  obtain ⟨hssl, hcoh⟩ := hkept
  clear hy
  dsimp only
  split
  · exact ⟨rfl, hssl, fun _ => hcoh⟩
  split
  · exact ⟨rfl, hssl, fun _ => hcoh⟩
  refine safe_ask (fun n hn => hn) fun ok s' => ?_
  cases ok with
  | false =>
      refine close_safe.bind fun z own s' hz => ?_
      obtain ⟨rfl, rfl⟩ := hz
      exact ⟨(owns_none rfl).symm, hssl, fun _ => ⟨nofun, hcoh.2⟩⟩
  | true =>
      refine (getRemoteAddress_safe (x := { y with isConnected := true })).bind
        fun z own s' hz => ?_
      obtain ⟨⟨ra, rfl⟩, rfl⟩ := hz
      refine (getLocalAddress_safe
        (x := { y with isConnected := true, remoteAddress := ra })).bind fun z own s' hz => ?_
      obtain ⟨⟨la, rfl⟩, rfl⟩ := hz
      refine ⟨rfl, hssl, fun h => ?_⟩
      obtain h | h := h
      · cases h
      · exact coherent_plain (hcoh.2 (hssl.trans h))

theorem connect_safe (hx : x.Coherent) :
    Safe (fun r own => own = r.2.owns ∧ r.2.Coherent) (x.connect hook addr) x.owns s := by
  refine (connectBase_safe hx).bind fun r own s' hr => ?_
  obtain ⟨ok, y⟩ := r
  obtain ⟨rfl, hssl, hcoh⟩ := hr
  dsimp only at hssl hcoh ⊢
  split
  · rename_i h
    rw [Bool.and_eq_true] at h
    refine safe_ask (fun n hn => hn) fun ok s' => ?_
    refine ⟨rfl, fun _ => .inr rfl, fun hplain => ?_⟩
    exact absurd (h.1.symm.trans hplain) nofun
  · rename_i h
    refine ⟨rfl, hcoh ?_⟩
    rw [← hssl]
    cases ok
    · exact .inl rfl
    · exact .inr (by simpa using h)

theorem reconnect_safe (hx : x.Coherent) :
    Safe (fun r own => own = r.2.owns ∧ r.2.Coherent) (x.reconnect hook) x.owns s := by
  rw [reconnect]
  split
  · exact ⟨rfl, hx⟩
  · exact connect_safe (x := { x with localAddress := none }) hx

/-- The socket that asks at a path has closed its descriptor. -/
theorem taken_safe : Safe (fun _ own => own = ∅) (taken hook addr) ∅ s := by
  cases addr with
  | sockaddr family addr => rfl
  | unix path =>
      have hnew : ({ family := Address.afUnix } : Socket).Coherent := coherent_plain rfl
      have howns : ({ family := Address.afUnix } : Socket).owns = ∅ := owns_none rfl
      have hconnect : Safe (fun r own => own = r.2.owns ∧ r.2.Coherent)
          (connect hook (.unix path) { family := Address.afUnix })
          ({ family := Address.afUnix } : Socket).owns s := connect_safe hnew
      rw [howns] at hconnect
      refine hconnect.bind fun r own s' hr => ?_
      obtain ⟨ok, sock⟩ := r
      obtain ⟨rfl, -⟩ := hr
      dsimp only
      split
      · exact close_safe.bind fun _ own _ hown => hown.2
      · refine safe_still (fun _ => rfl) id (fun n hn => by cases hn) fun _ s' => ?_
        exact close_safe.bind fun _ own _ hown => hown.2

theorem bind_safe (hx : x.Coherent) :
    Safe (fun r own => own = r.2.owns ∧ r.2.Coherent) (x.bind hook addr) x.owns s := by
  refine ready_safe.bind fun y own s' hy => ?_
  obtain ⟨hy, rfl⟩ := hy
  have hcoh : y.Coherent := by
    obtain rfl | ⟨hnone, fd, rfl⟩ := hy
    · exact hx
    · exact hx.newSock hnone fd
  clear hy
  split
  · exact ⟨rfl, hcoh⟩
  split
  · exact ⟨rfl, hcoh⟩
  have htaken : Safe (fun _ own => own = ∅) (taken hook addr) ∅ s' := taken_safe
  replace htaken := htaken.frame (F := y.owns) kernel_lawful fun n _ hn => hn
  rw [Set.empty_union] at htaken
  refine htaken.bind fun isTaken own s' hown => ?_
  obtain ⟨o, rfl, rfl, -⟩ := hown
  rw [Set.empty_union]
  split
  · exact ⟨rfl, hcoh⟩
  refine safe_ask (fun n hn => hn) fun ok s' => ?_
  split
  · exact ⟨rfl, hcoh⟩
  refine getLocalAddress_safe.bind fun z own s' hz => ?_
  obtain ⟨⟨la, rfl⟩, rfl⟩ := hz
  exact ⟨rfl, hcoh⟩

theorem listen_safe : Safe (fun _ own => own = x.owns) x.listen x.owns s := by
  rw [listen]
  split
  · rfl
  · exact safe_ask (fun n hn => hn) fun _ _ => rfl

theorem transfer_safe (hx : x.Coherent) (hc : x.sslSession.isSome → x.isConnected = true) :
    Safe (fun _ own => own = x.owns) x.transfer x.owns s := by
  rw [transfer]
  split
  · split
    · rfl
    · rename_i fd hfd
      refine safe_ask (fun n hn => ?_) fun _ _ => rfl
      obtain rfl := Option.some.inj hn
      obtain hnone | hsock := hx.1 (hc (by rw [hfd]; rfl))
      · rw [hfd] at hnone
        cases hnone
      · exact hsock.symm.trans hfd
  · split
    · exact safe_ask (fun n hn => hn) fun _ _ => rfl
    · rfl

/-- `accept` leaves a context, and every context is a socket's. -/
theorem isOpenSocket_accept {s s' : Hook.State} {sock : Option Nat} {fd : Nat}
    (hi : SocketContexts s) (h : answer s (.accept hook sock) (some fd) = some s') :
    isOpenSocket s' fd = true := by
  have hi' : SocketContexts s' :=
    kernel_lawful.inv (c := .accept hook sock) (r := some fd) hi h
  obtain ⟨-, h⟩ := Option.ite_none_left_eq_some.mp h
  obtain ⟨-, h⟩ := Option.ite_none_left_eq_some.mp h
  obtain rfl := Option.some.inj h
  rw [isOpenSocket]
  cases hctx : (((s.openSocket fd 0).getAutoCreate fd).ctx fd) with
  | none =>
      rw [Hook.ctx_getAutoCreate] at hctx
      split at hctx
      · cases hctx
      · rename_i hne
        exact absurd ⟨rfl, hctx⟩ hne
  | some c => simp [(hi' fd c hctx).1, (hi' fd c hctx).2]

/-- The context is still there when `init` asks for it. -/
theorem initBase_safe {fd : Nat} (h : isOpenSocket s fd = true) (hx : x.sslSession = none) :
    Safe (fun r own => r.1 = true ∧ own = r.2.owns ∧ r.2.sslSession = none ∧ r.2.ssl = x.ssl)
      (x.initBase fd) {n | some fd = some n} s := by
  refine ⟨fun n hn => hn, fun s₁ h₁ r s₂ h₂ => ?_⟩
  obtain ⟨hr, -⟩ := Option.ite_none_right_eq_some.mp h₂
  have hctx : s₁.ctx fd = s.ctx fd := (h₁.2 fd rfl).2
  rw [isOpenSocket, hctx] at hr
  rw [isOpenSocket] at h
  rw [h] at hr
  subst hr
  have hafter : kernel.after {n | some fd = some n} (.get fd) true = {n | some fd = some n} := by
    ext n
    change some fd = some n ∧ ¬(False ∧ _) ∨ none = some n ↔ some fd = some n
    simp
  rw [hafter]
  let y : Socket := { x with sock := some fd, isConnected := true }
  refine (initSock_safe (x := y)).bind fun _ own s' hown => ?_
  obtain rfl := hown
  refine (getLocalAddress_safe (x := y)).bind fun z own s' hz => ?_
  obtain ⟨⟨la, rfl⟩, rfl⟩ := hz
  refine (getRemoteAddress_safe (x := { y with localAddress := la })).bind fun z own s' hz => ?_
  obtain ⟨⟨ra, rfl⟩, rfl⟩ := hz
  exact ⟨rfl, rfl, hx, rfl⟩

theorem init_safe {fd : Nat} (h : isOpenSocket s fd = true) (hx : x.sslSession = none) :
    Safe (fun r own => own = r.2.owns ∧ r.2.Coherent) (x.init fd) {n | some fd = some n} s := by
  refine (initBase_safe h hx).bind fun r own s' hr => ?_
  obtain ⟨ok, y⟩ := r
  obtain ⟨rfl, rfl, hnone, hssl⟩ := hr
  dsimp only at hnone hssl ⊢
  split
  · rename_i hy
    rw [Bool.and_true] at hy
    refine safe_ask (fun n hn => hn) fun ok s' => ?_
    refine ⟨rfl, fun _ => .inr rfl, fun hplain => ?_⟩
    exact absurd (hy.symm.trans hplain) nofun
  · exact ⟨rfl, coherent_plain hnone⟩

end Socket

/-- What a place owns between two methods. -/
def Rests : Option Socket → Set Nat → Prop
  | none, own => own = ∅
  | some x, own => own = x.owns ∧ x.Coherent

theorem Socket.accept_safe {x : Socket} {hook : Bool} {s : Hook.State} :
    Safe Rests (x.accept hook) ∅ s := by
  refine ⟨nofun, fun s₁ h₁ r s₂ h₂ => ?_⟩
  have hafter : kernel.after ∅ (.accept hook x.sock) r = {n | r = some n} := by
    ext n
    change n ∈ (∅ : Set Nat) ∧ _ ∨ r = some n ↔ r = some n
    simp
  rw [hafter]
  cases r with
  | none =>
      let y : Socket := { ssl := x.ssl, family := x.family, type := x.type }
      have hclose : Safe (fun z own => z = { y with isConnected := false, sock := none } ∧
          own = ∅) (y.close hook) y.owns s₂ := close_safe
      exact hclose.bind (f := fun _ => pure none) fun z own s' hz => hz.2
  | some fd =>
      refine (init_safe (isOpenSocket_accept h₁.1 h₂) rfl).bind fun r own s' hr => ?_
      obtain ⟨ok, y⟩ := r
      obtain ⟨rfl, hcoh⟩ := hr
      dsimp only at hcoh ⊢
      split
      · exact ⟨rfl, hcoh⟩
      · exact close_safe.bind fun z own s' hz => hz.2

/-- **Each method** is safe with what its place owns. -/
theorem Method.prog_safe {m : Method} {o : Option Socket} {p : Call (Option Socket)}
    {own : Set Nat} {s : Hook.State} (hp : m.prog o = some p) (ho : Rests o own)
    (hc : ∀ x, m = .transfer → o = some x → x.sslSession.isSome → x.isConnected = true) :
    Safe Rests p own s := by
  cases o with
  | none =>
      obtain rfl := ho
      cases m with
      | create ssl family type =>
          obtain rfl := Option.some.inj hp
          exact ⟨(Socket.owns_none rfl).symm, Socket.coherent_plain rfl⟩
      | createUDP hook family =>
          obtain rfl := Option.some.inj hp
          let x : Socket := { family := family, type := UDP }
          have hnew : Safe (fun y own => (∃ fd, y = { x with sock := fd }) ∧ own = y.owns)
              (x.newSock hook) x.owns s := Socket.newSock_safe rfl
          rw [Socket.owns_none rfl] at hnew
          refine hnew.bind fun y own s' hy => ?_
          obtain ⟨⟨fd, rfl⟩, rfl⟩ := hy
          exact ⟨rfl, Socket.coherent_plain rfl⟩
      | accept hook listening =>
          obtain rfl := Option.some.inj hp
          exact Socket.accept_safe
      | _ => cases hp
  | some x =>
      obtain ⟨rfl, hx⟩ := ho
      cases m with
      | bind hook addr =>
          obtain rfl := Option.some.inj hp
          exact (Socket.bind_safe hx).bind fun r own s' hr => hr
      | listen =>
          obtain rfl := Option.some.inj hp
          exact Socket.listen_safe.bind fun _ own s' hown => ⟨hown, hx⟩
      | connect hook addr =>
          obtain rfl := Option.some.inj hp
          exact (Socket.connect_safe hx).bind fun r own s' hr => hr
      | reconnect hook =>
          obtain rfl := Option.some.inj hp
          exact (Socket.reconnect_safe hx).bind fun r own s' hr => hr
      | transfer =>
          obtain rfl := Option.some.inj hp
          exact (Socket.transfer_safe hx (hc x rfl rfl)).bind fun _ own s' hown => ⟨hown, hx⟩
      | close hook =>
          obtain rfl := Option.some.inj hp
          refine Socket.close_safe.bind fun y own s' hy => ?_
          obtain ⟨rfl, rfl⟩ := hy
          exact ⟨(Socket.owns_none rfl).symm, nofun, hx.2⟩
      | destroy hook =>
          obtain rfl := Option.some.inj hp
          exact Socket.close_safe.bind fun y own s' hy => hy.2
      | _ => cases hp

/-! ## Runs -/

/-- An `SSLSocket` with a session is asked to send or receive only while it is
connected. -/
def inSession (S : State) : Act → Bool
  | .start i .transfer =>
      match S.progs i with
      | .ret (some x) => !x.sslSession.isSome || x.isConnected
      | _ => true
  | _ => true

def InSession (S : State) (a : Act) : Prop := inSession S a = true

instance (S : State) (a : Act) : Decidable (InSession S a) :=
  inferInstanceAs (Decidable (_ = true))

theorem ctx_new (fd : Nat) : ({} : Hook.State).ctx fd = none := by
  change (List.replicate 64 none)[fd]?.join = none
  rw [List.getElem?_replicate]
  split <;> rfl

theorem start_shares : kernel.Shares SocketContexts Rests (fun _ => ∅) start where
  safe _ := rfl
  apart _ _ _ h := h.elim
  open_iff fd := by
    change false = true ↔ _
    simp
  inv := by
    intro fd c hc
    have hctx : ({} : Hook.State).ctx fd = some c := hc
    rw [ctx_new] at hctx
    cases hctx

/-- **Descriptors are owned.** In every state of a run, a descriptor that a call
is about is open, and it is of no socket but that of the method, whether another
method calls on it or the socket rests; the descriptors of two sockets that rest
differ, and are open; and once the methods have ended, every open descriptor is
that of a socket. -/
theorem descriptors_owned {as : List Act} {S : State} (hok : Meets step InSession start as)
    (h : run step start as = some S) :
    (∀ i c k fd, S.progs i = .call c k → c.target = some fd →
      (S.kernel.file fd).isSome ∧
        (∀ j d l, S.progs j = .call d l → d.target = some fd → j = i) ∧
        ∀ j x, S.progs j = .ret (some x) → x.sock ≠ some fd) ∧
    (∀ i x fd, S.progs i = .ret (some x) → x.sock = some fd →
      (S.kernel.file fd).isSome ∧
        ∀ j y, S.progs j = .ret (some y) → y.sock = some fd → j = i) ∧
    ((∀ i, ∃ o, S.progs i = .ret o) → ∀ fd, (S.kernel.file fd).isSome →
      ∃ i x, S.progs i = .ret (some x) ∧ x.sock = some fd) := by
  have hnext : ∀ {S : State} {i m o p own}, S.progs i = .ret o → InSession S (.start i m) →
      Method.prog m o = some p → Rests o own → Safe Rests p own S.kernel := by
    intro S i m o p own hi hc hp ho
    refine Method.prog_safe hp ho ?_
    rintro x rfl rfl hssl
    simpa [InSession, inSession, hi, hssl] using hc
  obtain ⟨own, hshares⟩ := Kernel.run_shares kernel_lawful hnext start_shares hok h
  have hrest : ∀ {i x}, S.progs i = .ret (some x) → own i = x.owns := by
    intro i x hi
    have hsafe := hshares.safe i
    rw [hi] at hsafe
    exact hsafe.1
  have hcall : ∀ {i c k fd}, S.progs i = .call c k → c.target = some fd → fd ∈ own i := by
    intro i c k fd hi ht
    have hsafe := hshares.safe i
    rw [hi] at hsafe
    exact hsafe.1 fd ht
  refine ⟨fun i c k fd hi ht => ?_, fun i x fd hi hfd => ?_, fun hends fd hfd => ?_⟩
  · have hown := hcall hi ht
    refine ⟨(hshares.open_iff fd).mpr ⟨i, hown⟩, fun j d l hj hd => ?_, fun j x hj hx => ?_⟩
    · exact hshares.apart j i fd (hcall hj hd) hown
    · -- a socket that rests owns its descriptor, as the method does
      have hfd : fd ∈ own j := by
        rw [hrest hj]
        exact hx
      obtain rfl := hshares.apart i j fd hown hfd
      rw [hi] at hj
      cases hj
  · have hown : fd ∈ own i := by
      rw [hrest hi]
      exact hfd
    refine ⟨(hshares.open_iff fd).mpr ⟨i, hown⟩, fun j y hj hy => ?_⟩
    refine hshares.apart j i fd ?_ hown
    rw [hrest hj]
    exact hy
  · obtain ⟨i, hown⟩ := (hshares.open_iff fd).mp hfd
    obtain ⟨o, hi⟩ := hends i
    cases o with
    | none =>
        have hsafe := hshares.safe i
        rw [hi] at hsafe
        have hempty : own i = ∅ := hsafe
        rw [hempty] at hown
        exact hown.elim
    | some x =>
        rw [hrest hi] at hown
        exact ⟨i, x, hi, hown⟩

/-- Everything succeeds, and the number is the one given. -/
def granted (fd : Nat) : ∀ c : Sys, c.Answer
  | .socket .. => some fd
  | .accept .. => some fd
  | .close .. => ()
  | .get _ => true
  | .ask .. => true
  | .getsockname _ => none
  | .getpeername _ => none
  | .unlink _ => ()

/-- The turns of one method. -/
def turns (i fd n : Nat) : List Act := List.replicate n (.answer i (granted fd))

/-- An `SSLSocket` connects and sends while another socket is accepted. -/
def serving : List Act :=
  [.start 0 (.create true 2 TCP), .start 0 (.connect true (.sockaddr 2 []))] ++ turns 0 3 4 ++
    [.start 1 (.accept false { family := 2, sock := some 9 })] ++ turns 1 4 3 ++ turns 0 3 2 ++
    [.start 0 .transfer] ++ turns 1 4 3

theorem serving_owned : ∃ S, run step start serving = some S ∧
    ∀ i x fd, S.progs i = .ret (some x) → x.sock = some fd →
      (S.kernel.file fd).isSome ∧
        ∀ j y, S.progs j = .ret (some y) → y.sock = some fd → j = i := by
  have hsome : (run step start serving).isSome = true := by decide
  obtain ⟨S, h⟩ := Option.isSome_iff_exists.mp hsome
  exact ⟨S, h, (descriptors_owned (by decide) h).2.1⟩

/-- A closed `SSLSocket` keeps its session, and the number goes to another socket. -/
def outlived : List Act :=
  [.start 0 (.create true 2 TCP), .start 0 (.connect true (.sockaddr 2 []))] ++ turns 0 3 6 ++
    [.start 0 (.close true)] ++ turns 0 3 1 ++
    [.start 1 (.accept false { family := 2, sock := some 9 })] ++ turns 1 3 6 ++
    [.start 0 .transfer]

/-- What is sent then goes to the other one's peer. -/
example : (run step start outlived).any (fun S =>
    match S.progs 0, S.progs 1 with
    | .call c _, .ret (some x) => c.target == x.sock
    | _, _ => false) = true := by
  decide

end Hps.Net.Descriptors
