import Hps.Bytes.Transfer
import Hps.Http.Assembly

/-!
# HTTP — what a fixed-size transfer returns

The loops of `readFixSize` and `writeFixSize` count in `int64_t`, and what
they return at the end is their length as an `int`. Of a length whose low 32
bits are zero or have the highest one set, a transfer that went well looks
like a failure to `recvRequest` and `recvResponse`.
-/

namespace Hps.Bytes

/-- What the calls of the loop return. -/
def fixSizeCalls (io : Nat → Io Int) : Nat → Int → Wire → List Int
  | 0, _, _ => []
  | fuel + 1, left, w =>
      if left > 0 then
        match io left.toNat w with
        | .ok len w' => len :: if len ≤ 0 then [] else fixSizeCalls io fuel (left - len) w'
        | .error _ _ => []
      else []

/-- A result that is not positive tells of a failed call, and calls that move
all that is asked for have a positive one. -/
def Truthful (length : Nat) (calls : List Int) (rt : Int) : Prop :=
  (rt ≤ 0 → ∃ len ∈ calls, len ≤ 0) ∧
    ((∀ len ∈ calls, 0 < len) → calls.sum = length → 0 < rt)

/-- The low 32 bits of the length are positive as an `int`. -/
def FitsInt (length : Nat) : Prop := 0 < length % 2 ^ 32 ∧ length % 2 ^ 32 < 2 ^ 31

instance (length : Nat) : Decidable (FitsInt length) :=
  inferInstanceAs (Decidable (_ ∧ _))

theorem bmod_pos_iff (n : Nat) : 0 < (n : Int).bmod (2 ^ 32) ↔ FitsInt n := by
  rw [FitsInt, Int.bmod_def]
  split <;> omega

/-- What the loop leaves early with is what its last call returned, and a
loop that does not leave early moves all that is left. -/
theorem fixSizeLoop_calls {io : Nat → Io Int} {fuel : Nat} {left : Int} {w w' : Wire}
    {early : Option Int} (hfuel : left ≤ fuel)
    (h : fixSizeLoop io fuel left w = .ok early w') :
    match early with
    | some len => len ∈ fixSizeCalls io fuel left w ∧ len ≤ 0
    | none => (∀ len ∈ fixSizeCalls io fuel left w, 0 < len) ∧
        left ≤ (fixSizeCalls io fuel left w).sum := by
  induction fuel generalizing left w with
  | zero =>
      obtain ⟨rfl, -⟩ := EStateM.Result.ok.inj h
      refine ⟨fun len hlen => (List.not_mem_nil hlen).elim, ?_⟩
      rw [fixSizeCalls, List.sum_nil]
      exact hfuel
  | succ fuel ih =>
      rw [fixSizeLoop] at h
      rw [fixSizeCalls]
      by_cases hleft : left > 0
      · rw [if_pos hleft] at h ⊢
        cases hio : io left.toNat w with
        | error e w₁ =>
            rw [show (io left.toNat >>= fun len => if len ≤ 0 then pure (some len)
              else fixSizeLoop io fuel (left - len)) w = .error e w₁ by
                simp [bind, EStateM.bind, hio]] at h
            cases h
        | ok len w₁ =>
            rw [io_bind_ok hio] at h
            dsimp only
            by_cases hlen : len ≤ 0
            · rw [if_pos hlen] at h ⊢
              obtain ⟨rfl, -⟩ := EStateM.Result.ok.inj h
              exact ⟨List.mem_singleton_self len, hlen⟩
            · rw [if_neg hlen] at h ⊢
              have hrest := ih (by omega) h
              cases early with
              | some l =>
                  exact ⟨List.mem_cons_of_mem len hrest.1, hrest.2⟩
              | none =>
                  refine ⟨List.forall_mem_cons.mpr ⟨by omega, hrest.1⟩, ?_⟩
                  rw [List.sum_cons]
                  have := hrest.2
                  omega
      · rw [if_neg hleft] at h ⊢
        obtain ⟨rfl, -⟩ := EStateM.Result.ok.inj h
        refine ⟨fun len hlen => (List.not_mem_nil hlen).elim, ?_⟩
        rw [List.sum_nil]
        omega

/-- Calls that do not throw. -/
theorem fixSizeLoop_total {io : Nat → Io Int} (hio : ∀ n w, ∃ len w', io n w = .ok len w')
    (fuel : Nat) (left : Int) (w : Wire) :
    ∃ early w', fixSizeLoop io fuel left w = .ok early w' := by
  induction fuel generalizing left w with
  | zero => exact ⟨none, w, rfl⟩
  | succ fuel ih =>
      rw [fixSizeLoop]
      split
      · obtain ⟨len, w₁, hlen⟩ := hio left.toNat w
        rw [io_bind_ok hlen]
        split
        · exact ⟨some len, w₁, rfl⟩
        · exact ih (left - len) w₁
      · exact ⟨none, w, rfl⟩

theorem fixSize_total {io : Nat → Io Int} (hio : ∀ n w, ∃ len w', io n w = .ok len w')
    (length : Nat) (w : Wire) : ∃ rt w', fixSize io length w = .ok rt w' := by
  obtain ⟨early, w', hloop⟩ := fixSizeLoop_total hio
    ((length : Int).bmod (2 ^ 64)).toNat ((length : Int).bmod (2 ^ 64)) w
  refine ⟨early.getD ((length : Int).bmod (2 ^ 32)), w', ?_⟩
  rw [fixSize, io_bind_ok hloop]
  rfl

/-- **The result of a transfer** is truthful if one of its calls failed, and
otherwise if the low bits of the length are. -/
theorem fixSize_truthful {io : Nat → Io Int} {length : Nat} (hlength : length < 2 ^ 63)
    {w w' : Wire} {rt : Int} (h : fixSize io length w = .ok rt w') :
    Truthful length (fixSizeCalls io length length w) rt ↔
      (∃ len ∈ fixSizeCalls io length length w, len ≤ 0) ∨ FitsInt length := by
  have h64 : (length : Int).bmod (2 ^ 64) = length := by
    rw [Int.bmod_eq_of_le] <;> omega
  rw [fixSize, h64, Int.toNat_natCast] at h
  cases hloop : fixSizeLoop io length length w with
  | error e w₁ =>
      simp [bind, EStateM.bind, hloop] at h
  | ok early w₁ =>
      rw [io_bind_ok hloop] at h
      obtain ⟨rfl, -⟩ := EStateM.Result.ok.inj h
      have hcalls := fixSizeLoop_calls (Int.le_refl length) hloop
      cases early with
      | some len =>
          obtain ⟨hmem, hle⟩ := hcalls
          refine ⟨fun _ => .inl ⟨len, hmem, hle⟩, fun _ => ⟨fun _ => ⟨len, hmem, hle⟩, ?_⟩⟩
          intro hall
          exact absurd (hall len hmem) (by omega)
      | none =>
          obtain ⟨hpos, -⟩ := hcalls
          have hnone : ¬∃ len ∈ fixSizeCalls io length length w, len ≤ 0 := by
            rintro ⟨len, hmem, hle⟩
            exact absurd (hpos len hmem) (by omega)
          rw [Option.getD_none, Truthful, ← bmod_pos_iff]
          constructor
          · rintro ⟨hfails, -⟩
            refine .inr ?_
            by_contra hle
            exact hnone (hfails (by omega))
          · rintro (hfails | hfits)
            · exact absurd hfails hnone
            · exact ⟨fun hle => absurd hfits (by omega), fun _ _ => hfits⟩

end Hps.Bytes

namespace Hps.Http

open Hps.Bytes (Wire Io fixSize fixSizeCalls FitsInt Truthful)

/-- The body of `n` bytes that are all there is given up if the number of
those behind the head is not truthful. -/
theorem assemble_some_iff {data : List UInt8} {offset n : Nat} {s : Socket}
    (hs : s.connected = true) (hle : n ≤ offset + s.bytes.length) :
    (assemble data offset n s).1 ≠ none ↔ n ≤ offset ∨ FitsInt (n - offset) := by
  rw [assemble]
  dsimp only
  by_cases hmore : offset < n
  · have hread := @Socket.readFixSize_eq s (n - offset) hs (by omega)
    have hneg : ¬n ≤ offset := by omega
    rw [if_pos (by omega), show ((n : Int) - offset).toNat = n - offset by omega, hread,
      or_iff_right hneg, ← Bytes.bmod_pos_iff]
    dsimp only
    rw [toInt32]
    generalize ((n - offset : Nat) : Int).bmod (2 ^ 32) = rt
    by_cases hrt : rt ≤ 0
    · rw [if_pos hrt]
      exact ⟨fun h => absurd rfl h, fun h => absurd hrt (Int.not_le.mpr h)⟩
    · rw [if_neg hrt]
      exact ⟨fun _ => Int.not_le.mp hrt, fun _ => Option.some_ne_none _⟩
  · rw [if_neg (by omega)]
    exact ⟨fun _ => .inl (by omega), fun _ => Option.some_ne_none _⟩

/-- **Fixed-size transfers report success as success** exactly for lengths
that fit: whatever the underlying calls return, the result is truthful if one
of them failed or the low 32 bits of the length are positive as an `int`; and
a body that is received completely is kept by `recvRequest` and
`recvResponse` if the number of bytes behind the head is such a length. -/
theorem fixSize_truthful_iff {io : Nat → Io Int} (hio : ∀ n w, ∃ len w', io n w = .ok len w')
    {length : Nat} (_ : 1 ≤ length) (hlength : length < 2 ^ 63) (w : Wire) (h : Request.Head)
    (parser : Response.HttpResponseParser) (data : List UInt8) (s : Socket) (n : Nat) :
    (∃ rt w', fixSize io length w = .ok rt w' ∧
      (Truthful length (fixSizeCalls io length length w) rt ↔
        (∃ len ∈ fixSizeCalls io length length w, len ≤ 0) ∨ FitsInt length)) ∧
    (toInt64 h.parser.getContentLength = n → 0 < n → s.connected = true →
      n ≤ h.offset + s.bytes.length →
      ((Request.recvBody h s).1 ≠ none ↔ n ≤ h.offset ∨ FitsInt (n - h.offset))) ∧
    (toInt64 parser.getContentLength = n → 0 < n → s.connected = true →
      n ≤ data.length + s.bytes.length →
      ((Response.recvLength parser data s).1 ≠ .ok none ↔
        n ≤ data.length ∨ FitsInt (n - data.length))) := by
  refine ⟨?_, ?_, ?_⟩
  · obtain ⟨rt, w', hrun⟩ := Bytes.fixSize_total hio length w
    exact ⟨rt, w', hrun, Bytes.fixSize_truthful hlength hrun⟩
  · intro hlen hpos hs hle
    rw [Request.recvBody_of_pos hlen hpos, ← @assemble_some_iff h.data _ _ _ hs hle]
    exact Option.map_eq_none_iff.not
  · intro hlen hpos hs hle
    rw [Response.recvLength_of_pos hlen hpos, ← @assemble_some_iff data _ _ _ hs hle]
    exact ⟨fun h hnone => h (congrArg Except.ok hnone), fun h hnone => h (Except.ok.inj hnone)⟩

/-- A stream each of whose calls moves so many bytes. -/
def moving (len : Nat) : Nat → Io Int := fun _ w => .ok len w

theorem moving_calls_pos {len : Nat} (hlen : 0 < len) (fuel : Nat) (left : Int) (w : Wire) :
    ∀ rt ∈ fixSizeCalls (moving len) fuel left w, 0 < rt := by
  induction fuel generalizing left with
  | zero => exact nofun
  | succ fuel ih =>
      rw [fixSizeCalls]
      split
      · dsimp only [moving]
        rw [if_neg (by omega)]
        exact List.forall_mem_cons.mpr ⟨by omega, ih (left - len)⟩
      · exact nofun

def emptyWire : Wire := { array := .new (fun _ _ => 0) 1 }

/-- A head that declares five bytes, and two bytes behind it. -/
def declaresFive : Request.Head where
  parser := { Request.HttpRequestParser.new ⟨0, false⟩ with
    data := HttpRequest.setHeader {} (text "content-length") (text "5") }
  data := text "ab"
  offset := 2

def declaresFiveReply : Response.HttpResponseParser :=
  { Response.HttpResponseParser.new with
    data := HttpResponse.setHeader {} (text "content-length") (text "5") }

theorem fourBytes_truthful :
    (∃ rt w', fixSize (moving 2) 4 emptyWire = .ok rt w' ∧
      Truthful 4 (fixSizeCalls (moving 2) 4 4 emptyWire) rt) ∧
    (Request.recvBody declaresFive { arrivals := [Request.arrival "cdefg" (by decide)] }).1 ≠ none ∧
    (Response.recvLength declaresFiveReply (text "ab")
      { arrivals := [Request.arrival "cdefg" (by decide)] }).1 ≠ .ok none := by
  have hmoving : ∀ n w, ∃ len w', moving 2 n w = .ok len w' := fun _ w => ⟨2, w, rfl⟩
  obtain ⟨⟨rt, w', h, hiff⟩, hrequest, hresponse⟩ := @fixSize_truthful_iff (moving 2) hmoving 4
    (by decide) (by decide) emptyWire declaresFive declaresFiveReply (text "ab")
    { arrivals := [Request.arrival "cdefg" (by decide)] } 5
  refine ⟨⟨rt, w', h, hiff.mpr (.inr (by decide))⟩, ?_, ?_⟩
  · exact (hrequest (by decide +kernel) (by decide) rfl (by decide)).mpr (.inr (by decide))
  · exact (hresponse (by decide +kernel) (by decide) rfl (by decide)).mpr (.inr (by decide))

/-- Two calls move a gigabyte each, and 2 GiB are `INT_MIN`. -/
theorem twoGigabytes_untruthful : ¬∀ (io : Nat → Io Int) (length : Nat) (w w' : Wire) (rt : Int),
    1 ≤ length → length < 2 ^ 63 → fixSize io length w = .ok rt w' →
    Truthful length (fixSizeCalls io length length w) rt := by
  intro h
  obtain ⟨rt, w', hrun⟩ := @Bytes.fixSize_total (moving (2 ^ 30))
    (fun _ w => ⟨_, w, rfl⟩) (2 ^ 31) emptyWire
  have htruthful := h _ (2 ^ 31) emptyWire w' rt (by decide) (by decide) hrun
  rcases (Bytes.fixSize_truthful (by decide) hrun).mp htruthful with ⟨len, hmem, hle⟩ | hfits
  · exact absurd (moving_calls_pos (by decide) _ _ _ len hmem) (by omega)
  · exact absurd hfits (by decide)

end Hps.Http
