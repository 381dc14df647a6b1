import Hps.Http.ChunkLoops

/-!
# HTTP — sizes a peer sends

The size of a chunk is a number of any length; `recvResponse` has it as an
`int`, adds and subtracts, and hands it to `append`, `memmove` and `resize`.
`chunkTurns` is what the loop over the chunks does with these numbers, turn by
turn, and `turns_safe_iff` says for which sizes that is safe.
-/

namespace Hps.Http.Response

open Hps.Lib

/-! ## What a turn does -/

/-- What is done with the size of a chunk: the computations in `int`, with
their values, and the calls with a length, with what there is of valid
bytes. -/
inductive Op where
  | int (value : Int)
  /-- `body.append(data, k)` -/
  | append (k : Int) (valid : Nat)
  /-- `memmove(data, data + source, k)` -/
  | memmove (source k : Int) (valid : Nat)
  /-- `body.resize(k)` -/
  | resize (k : Int) (size : Nat)

def Op.Safe : Op → Prop
  | .int value => -2 ^ 31 ≤ value ∧ value < 2 ^ 31
  | .append k valid => 0 ≤ k ∧ k ≤ valid
  | .memmove source k valid => 0 ≤ source ∧ 0 ≤ k ∧ source + k ≤ valid
  | .resize k size => 0 ≤ k ∧ k ≤ size

variable (buff : BuffSize)

/-- `while(left > 0)`, as in `readLeft`. -/
def leftOps : Nat → Nat → Socket → List Op
  | 0, _, _ => []
  | fuel + 1, left, s =>
      if left = 0 then []
      else
        let (rt, got, s) := s.recv (if left > buff.size then buff.size else left)
        if rt ≤ 0 then [] else .append rt got.length :: leftOps fuel (left - got.length) s

/-- The data of a chunk, as in `recvChunkData`. -/
def dataOps (contentLen : Int) (body data : List UInt8) (s : Socket) : List Op :=
  .int (contentLen + 2) ::
    if contentLen + 2 ≤ data.length then
      [.append contentLen data.length,
        .memmove (contentLen + 2) (data.length - contentLen - 2) data.length]
    else
      let left := (contentLen - data.length + 2).toNat
      .append data.length data.length :: .int (contentLen - data.length) ::
        .int (contentLen - data.length + 2) :: leftOps buff left left s ++
          match (readLeft buff left left (body ++ data) s).1 with
          | .ok (some body) => [.resize (body.length - 2) body.length]
          | _ => []

/-- A turn of the loop over the chunks: the valid bytes of the buffer and the
socket that it begins with, what the parser made of the line, and what is done
with it. -/
structure Turn where
  buffer : List UInt8
  socket : Socket
  contentLen : Int
  chunksDone : Bool
  ops : List Op

/-- The loop over the chunks, with its turns. -/
def tracedChunks : Nat → HttpResponseParser → List UInt8 → List UInt8 → Socket →
    List Turn × Received (HttpResponseParser × List UInt8)
  | 0, _, _, _, s => ([], (.ok none, s))
  | fuel + 1, parser, data, body, s =>
      match recvChunkHead buff (s.bytes.length + 2) true parser data s with
      | (.error e, s₁) => ([], (.error e, s₁))
      | (.ok none, s₁) => ([], (.ok none, s₁))
      | (.ok (some (parser₁, data₁)), s₁) =>
          -- what is recorded does not change what is done
          let t : Turn := ⟨data, s, parser₁.parser.contentLen, parser₁.parser.chunksDone,
            dataOps buff parser₁.parser.contentLen body data₁ s₁⟩
          match recvChunkData buff parser₁.parser.contentLen body data₁ s₁ with
          | (.error e, s₂) => ([t], (.error e, s₂))
          | (.ok none, s₂) => ([t], (.ok none, s₂))
          | (.ok (some (body₂, data₂)), s₂) =>
              if parser₁.parser.chunksDone then ([t], (.ok (some (parser₁, body₂)), s₂))
              else
                let r := tracedChunks fuel parser₁ data₂ body₂ s₂
                (t :: r.1, r.2)

/-- The turns of the loop over the chunks in a run of `recvResponse`. -/
def chunkTurns (s : Socket) : List Turn :=
  match recvHead buff (s.bytes.length + 1) .new [] s with
  | (.ok (some (parser, data)), s₁) =>
      if parser.parser.chunked then
        (tracedChunks buff (data.length + s₁.bytes.length + 1) parser data [] s₁).1
      else []
  | _ => []

/-- **The trace is that of the loop.** -/
theorem tracedChunks_snd (fuel : Nat) (parser : HttpResponseParser)
    (data body : List UInt8) (s : Socket) :
    (tracedChunks buff fuel parser data body s).2 =
      recvChunks buff fuel parser data body s := by
  induction fuel generalizing parser data body s with
  | zero => rfl
  | succ fuel ih =>
      rw [tracedChunks, recvChunks]
      rcases recvChunkHead buff (s.bytes.length + 2) true parser data s with
        ⟨_ | _ | ⟨parser₁, data₁⟩, s₁⟩
      · rfl
      · rfl
      · dsimp only
        rw [Received.bind_some]
        dsimp only
        rcases recvChunkData buff parser₁.parser.contentLen body data₁ s₁ with
          ⟨_ | _ | ⟨body₂, data₂⟩, s₂⟩
        · rfl
        · rfl
        · rw [Received.bind_some]
          dsimp only
          split
          · rfl
          · exact ih parser₁ data₂ body₂ s₂

/-! ## Operations -/

section Data

variable {buff}

/-- The reads of `while(left > 0)` hand out what they append. -/
theorem leftOps_safe {fuel left : Nat} {s : Socket} :
    ∀ op ∈ leftOps buff fuel left s, op.Safe := by
  induction fuel generalizing left s with
  | zero => exact fun op h => absurd h List.not_mem_nil
  | succ fuel ih =>
      rw [leftOps]
      split
      · exact fun op h => absurd h List.not_mem_nil
      · rcases s.recv_cases (if left > buff.size then buff.size else left) with
          ⟨rt, got, t, hrecv, hle⟩ | ⟨-, k, hk, -, hle, hrecv⟩
        · rw [hrecv]
          dsimp only
          rw [if_pos hle]
          exact fun op h => absurd h List.not_mem_nil
        · rw [hrecv]
          dsimp only
          rw [if_neg (by omega), List.forall_mem_cons]
          refine ⟨?_, ih⟩
          rw [Op.Safe, List.length_take_of_le hle]
          omega

/-- The loop does not throw, and a body that it goes on with is longer by what
was left. -/
theorem readLeft_ok {fuel left : Nat} {body : List UInt8} {s : Socket}
    (hfuel : left ≤ fuel) :
    ∃ r, (readLeft buff fuel left body s).1 = .ok r ∧
      ∀ b, r = some b → b.length = body.length + left := by
  induction fuel generalizing left body s with
  | zero =>
      refine ⟨some body, rfl, ?_⟩
      intro b hb
      obtain rfl := Option.some.inj hb
      omega
  | succ fuel ih =>
      rw [readLeft]
      split
      · rename_i h0
        refine ⟨some body, rfl, ?_⟩
        intro b hb
        obtain rfl := Option.some.inj hb
        omega
      · rcases s.recv_cases (if left > buff.size then buff.size else left) with
          ⟨rt, got, t, hrecv, hle⟩ | ⟨-, k, hk, hkm, hle, hrecv⟩
        · rw [hrecv]
          dsimp only
          rw [if_pos hle]
          refine ⟨none, rfl, ?_⟩
          intro b hb
          cases hb
        · have hkleft : k ≤ left := by
            split at hkm <;> omega
          have hlen : (s.bytes.take k).length = k := List.length_take_of_le hle
          rw [hrecv]
          dsimp only
          rw [if_neg (by omega), hlen]
          obtain ⟨r, hr, hbody⟩ := @ih (left - k) (body ++ s.bytes.take k) (s.skip k) (by omega)
          refine ⟨r, hr, ?_⟩
          intro b hb
          rw [hbody b hb, List.length_append, hlen]
          omega

variable {n : Int} {body data : List UInt8} {s : Socket}

/-- **The operations are safe if and only if `recvChunkData` does not fail.** -/
theorem dataOps_safe_iff (hn : -2 ^ 31 ≤ n) :
    (∀ op ∈ dataOps buff n body data s, op.Safe) ↔
      ∃ r, (recvChunkData buff n body data s).1 = .ok r := by
  have hsum : (Op.int (n + 2)).Safe ↔ n + 2 < 2 ^ 31 := by
    rw [Op.Safe]
    omega
  rw [dataOps, List.forall_mem_cons, hsum, recvChunkData]
  by_cases hover : 2 ^ 31 ≤ n + 2
  · rw [if_pos hover]
    refine iff_of_false (fun h => absurd h.1 (by omega)) ?_
    rintro ⟨r, hr⟩
    cases hr
  rw [if_neg hover]
  split
  · by_cases hneg : n < 0
    · -- `append` with a size that is none
      rw [if_pos hneg]
      refine iff_of_false ?_ ?_
      · rintro ⟨-, hops⟩
        have happend := (List.forall_mem_cons.mp hops).1
        rw [Op.Safe] at happend
        omega
      · rintro ⟨r, hr⟩
        cases hr
    · rw [if_neg hneg]
      refine iff_of_true ⟨by omega, ?_⟩ ⟨_, rfl⟩
      simp only [List.forall_mem_cons, Op.Safe]
      refine ⟨⟨by omega, by omega⟩, ⟨by omega, by omega, by omega⟩, ?_⟩
      exact fun op h => absurd h List.not_mem_nil
  · -- what is read fits, and `resize` is the last operation
    obtain ⟨r, hr, -⟩ := @readLeft_ok buff _ (n - data.length + 2).toNat
      (body ++ data) s (Nat.le_refl _)
    have hfirst : (Op.append data.length data.length).Safe ∧
        (Op.int (n - data.length)).Safe ∧ (Op.int (n - data.length + 2)).Safe :=
      ⟨⟨by omega, Int.le_refl _⟩, ⟨by omega, by omega⟩, ⟨by omega, by omega⟩⟩
    simp only [List.cons_append, List.forall_mem_cons, List.forall_mem_append, hfirst,
      true_and]
    revert hr
    obtain ⟨x, t⟩ := readLeft buff (n - data.length + 2).toNat
      (n - data.length + 2).toNat (body ++ data) s
    rintro rfl
    cases r with
    | none =>
        refine iff_of_true ⟨by omega, leftOps_safe, ?_⟩ ⟨none, rfl⟩
        exact fun op h => absurd h List.not_mem_nil
    | some b =>
        have hresize : (Op.resize (b.length - 2) b.length).Safe ↔ 2 ≤ b.length := by
          rw [Op.Safe]
          omega
        dsimp only
        rw [List.forall_mem_singleton, hresize, Received.bind_some]
        by_cases hb : b.length < 2
        · rw [if_pos hb]
          refine iff_of_false (fun h => absurd h.2.2 (by omega)) ?_
          rintro ⟨r, hr⟩
          cases hr
        · rw [if_neg hb]
          exact iff_of_true ⟨by omega, leftOps_safe, by omega⟩ ⟨_, rfl⟩

/-- A size that leaves room for the line end does not fail, wherever the reads
end. -/
theorem recvChunkData_ok (h0 : 0 ≤ n) (hfits : n + 2 < 2 ^ 31) :
    ∃ r, (recvChunkData buff n body data s).1 = .ok r := by
  rw [recvChunkData, if_neg (by omega)]
  split
  · rw [if_neg (by omega)]
    exact ⟨_, rfl⟩
  · obtain ⟨r, hr, hlen⟩ := @readLeft_ok buff _ (n - data.length + 2).toNat
      (body ++ data) s (Nat.le_refl _)
    revert hr
    dsimp only
    obtain ⟨x, t⟩ := readLeft buff (n - data.length + 2).toNat
      (n - data.length + 2).toNat (body ++ data) s
    rintro rfl
    cases r with
    | none => exact ⟨_, rfl⟩
    | some b =>
        have hb := hlen b rfl
        rw [List.length_append] at hb
        rw [Received.bind_some, if_neg (by omega)]
        exact ⟨_, rfl⟩

theorem dataOps_safe (h0 : 0 ≤ n) (hfits : n + 2 < 2 ^ 31) :
    ∀ op ∈ dataOps buff n body data s, op.Safe :=
  (dataOps_safe_iff (by omega)).mpr (recvChunkData_ok h0 hfits)

end Data

/-! ## The line before a chunk -/

/-- Behind the size: in the extensions, or in the line end. -/
def State.behindSize : State → Bool
  | .chunkExtension | .chunkExtName | .chunkExtEq | .chunkExtVal | .lastCr => true
  | _ => false

/-- The size is as it was. -/
def SameSize (r r' : HttpClientParser) : Prop :=
  r'.contentLen = r.contentLen ∧ r'.chunksDone = r.chunksDone

/-- Behind a size, a name or a value there is an extension or the line end,
which is over at the LF. -/
theorem extensionNext_cases {as as' : List Action} {c : UInt8} {q : State}
    (h : extensionNext as c = some (q, as')) :
    (c = 10 ∧ q = .finished none ∧ as' = as ++ [.done]) ∨
      ((c = 13 ∨ c = ch ';') ∧ q.behindSize = true ∧ as' = as) := by
  unfold extensionNext at h
  split_ifs at h with hlf hcr hsemi
  · cases h
    exact .inl ⟨hlf, rfl, rfl⟩
  · cases h
    exact .inr ⟨.inl hcr, rfl, rfl⟩
  · cases h
    exact .inr ⟨.inr hsemi, rfl, rfl⟩

/-- **One byte behind the size** leaves it as it is; the LF ends the line, or
is an error. -/
theorem behindSize_next {q q' : State} {c : UInt8} {as : List Action}
    (hq : q.behindSize = true) (h : machine.next q c = some (q', as)) :
    (∀ buffer p r, SameSize r (acts (act buffer) p as r).1) ∧
      ((c = 10 ∧ q' = .finished none ∧ as.any machine.stops = true) ∨
        (c ≠ 10 ∧ q'.behindSize = true ∧ as.any machine.stops = false)) := by
  have hlf : ∀ {c}, token c = true → c ≠ 10 := by
    rintro c hc rfl
    exact absurd hc (by decide)
  cases q with
  | chunkExtension =>
      change (if _ then _ else _) = _ at h
      split_ifs at h with hc
      cases h
      exact ⟨fun _ _ _ => ⟨rfl, rfl⟩, .inr ⟨hlf hc, rfl, rfl⟩⟩
  | chunkExtName =>
      change (if _ then _ else if _ then _ else _) = _ at h
      split_ifs at h with hc heq
      · cases h
        exact ⟨fun _ _ _ => ⟨rfl, rfl⟩, .inr ⟨hlf hc, rfl, rfl⟩⟩
      · cases h
        exact ⟨fun _ _ _ => ⟨rfl, rfl⟩, .inr ⟨by rw [heq]; decide, rfl, rfl⟩⟩
      · rcases extensionNext_cases h with ⟨rfl, rfl, rfl⟩ | ⟨hc, hq', rfl⟩
        · exact ⟨fun _ _ _ => ⟨rfl, rfl⟩, .inl ⟨rfl, rfl, rfl⟩⟩
        · refine ⟨fun _ _ _ => ⟨rfl, rfl⟩, .inr ⟨?_, hq', rfl⟩⟩
          rcases hc with rfl | rfl <;> decide
  | chunkExtEq =>
      change (if _ then _ else _) = _ at h
      split_ifs at h with hc
      cases h
      exact ⟨fun _ _ _ => ⟨rfl, rfl⟩, .inr ⟨hlf hc, rfl, rfl⟩⟩
  | chunkExtVal =>
      change (if _ then _ else _) = _ at h
      split_ifs at h with hc
      · cases h
        exact ⟨fun _ _ _ => ⟨rfl, rfl⟩, .inr ⟨hlf hc, rfl, rfl⟩⟩
      · rcases extensionNext_cases h with ⟨rfl, rfl, rfl⟩ | ⟨hc, hq', rfl⟩
        · exact ⟨fun _ _ _ => ⟨rfl, rfl⟩, .inl ⟨rfl, rfl, rfl⟩⟩
        · refine ⟨fun _ _ _ => ⟨rfl, rfl⟩, .inr ⟨?_, hq', rfl⟩⟩
          rcases hc with rfl | rfl <;> decide
  | lastCr =>
      change (if _ then _ else _) = _ at h
      split_ifs at h with hc
      cases h
      exact ⟨fun _ _ _ => ⟨rfl, rfl⟩, .inl ⟨hc, rfl, rfl⟩⟩
  | _ => cases hq

/-- **The rest of the line** leaves the size as it is, and comes to an end. -/
theorem exec_behindSize {buffer : List UInt8} {q : State} {p : Nat}
    {r : HttpClientParser} {cs : List UInt8} (hq : q.behindSize = true)
    (hlf : (10 : UInt8) ∈ cs) :
    (machine.exec (act buffer) q p r cs).ending = .failed ∨
      ((machine.exec (act buffer) q p r cs).ending = .stopped (.finished none) ∧
        SameSize r (machine.exec (act buffer) q p r cs).regs) := by
  induction cs generalizing q p r with
  | nil => exact absurd hlf List.not_mem_nil
  | cons c cs ih =>
      rcases Machine.exec_cons_cases machine (act buffer) q p r c cs with
        ⟨-, hrun⟩ | ⟨q', as, hnext, hstops, hrun⟩ | ⟨q', as, hnext, hstops, hrun⟩
      · exact .inl (by rw [hrun])
      · obtain ⟨hsame, ⟨-, rfl, -⟩ | ⟨-, -, hgoes⟩⟩ := behindSize_next hq hnext
        · rw [hrun]
          exact .inr ⟨rfl, hsame buffer p r⟩
        · rw [hstops] at hgoes
          cases hgoes
      · obtain ⟨hsame, ⟨-, -, hends⟩ | ⟨hc, hq', -⟩⟩ := behindSize_next hq hnext
        · rw [hstops] at hends
          cases hends
        · have hrest := (List.mem_cons.mp hlf).resolve_left (Ne.symm hc)
          rw [hrun, Machine.after_ending, Machine.after_regs]
          refine (ih hq' hrest).imp id (And.imp id fun h => ?_)
          exact ⟨h.1.trans (hsame buffer p r).1, h.2.trans (hsame buffer p r).2⟩

/-- What `contentLen` is of a size. -/
def asInt (size : Nat) : Int := toInt32 (min (size : Int) (2 ^ 63 - 1))

/-- **A line that is there as a whole** is an error, or its size is read. -/
theorem exec_line {ds rest : List UInt8} {d : UInt8} (hne : ds ≠ [])
    (hex : ∀ c ∈ ds, xdigit c = true) (hd : xdigit d = false)
    (hlf : (10 : UInt8) ∈ d :: rest) :
    (runOn httpClientParserInit .start (ds ++ d :: rest)).ending = .failed ∨
      ((runOn httpClientParserInit .start (ds ++ d :: rest)).ending =
          .stopped (.finished none) ∧
        (runOn httpClientParserInit .start (ds ++ d :: rest)).regs.contentLen =
          asInt (hexValue ds) ∧
        (runOn httpClientParserInit .start (ds ++ d :: rest)).regs.chunksDone =
          decide (asInt (hexValue ds) ≤ 0)) := by
  set data := ds ++ d :: rest with hdata
  have hrun := (@runs_digits data ds httpClientParserInit.reset hne hex).exec_append (d :: rest)
  have hnext : machine.next .chunkSize d = extensionNext [.chunkSize] d :=
    if_neg (by rw [hd]; exact Bool.false_ne_true)
  have hsize : (d = 10 ∨ d = 13 ∨ d = ch ';') → toInt32 (strtol data 16) =
      asInt (hexValue ds) := by
    intro hends
    rw [hdata, strtol_digits hne hex, asInt]
    intro c hc
    obtain rfl := Option.some.inj hc
    rcases hends with rfl | rfl | rfl <;> decide
  rw [runOn, hdata, hrun]
  -- behind the digits: an error, the LF, or the rest of the line
  rcases Machine.exec_cons_cases machine (act data) .chunkSize (0 + ds.length)
    { httpClientParserInit.reset with mark := 0 } d rest with
    ⟨-, hlast⟩ | ⟨q', as, hsome, hstops, hlast⟩ | ⟨q', as, hsome, hstops, hlast⟩
  · left
    rw [hlast]
    rfl
  · right
    rcases extensionNext_cases (hnext.symm.trans hsome) with
      ⟨hc, rfl, rfl⟩ | ⟨-, -, rfl⟩
    · rw [hlast, ← hsize (.inl hc)]
      exact ⟨rfl, rfl, rfl⟩
    · cases hstops
  · rcases extensionNext_cases (hnext.symm.trans hsome) with
      ⟨-, rfl, rfl⟩ | ⟨hc, hq', rfl⟩
    · cases hstops
    · have hrest : (10 : UInt8) ∈ rest := by
        refine (List.mem_cons.mp hlf).resolve_left ?_
        rcases hc with rfl | rfl <;> decide
      rw [hlast, ← hsize (.inr hc)]
      simp only [Machine.after_ending, Machine.after_regs]
      exact exec_behindSize hq' hrest

/-! ## Turns -/

section Line

variable {buff}
variable {p p' : HttpResponseParser} {data rest : List UInt8} {s s' : Socket}

/-- What `parse` goes on with is what `execute` made, without an error. -/
theorem execute_of_parse {chunck : Bool}
    (h : parse buff chunck p data s = (.ok (some (p', rest)), s')) :
    (∃ n, p.execute data chunck = .ok (n, p', rest)) ∧ p'.hasError = false := by
  rw [parse] at h
  split at h
  · cases h
  · rename_i n q left hexec
    split at h
    · cases h
    · rename_i herror
      split at h
      · cases h
      · cases h
        exact ⟨⟨n, hexec⟩, Bool.eq_false_iff.mpr herror⟩

/-- The buffer begins with a size, and has the line end. -/
structure HasLine (data : List UInt8) : Prop where
  digit : data.head?.any xdigit = true
  whole : (10 : UInt8) ∈ data

/-- The size that bytes begin with. -/
def sizeOf (data : List UInt8) : Nat := hexValue (data.takeWhile xdigit)

theorem HasLine.exists_eq (h : HasLine data) :
    ∃ ds d rest, data = ds ++ d :: rest ∧ ds ≠ [] ∧ (∀ c ∈ ds, xdigit c = true) ∧
      xdigit d = false ∧ (10 : UInt8) ∈ d :: rest := by
  have hdigits : ∀ c ∈ data.takeWhile xdigit, xdigit c = true := by
    intro c hc
    exact List.all_eq_true.mp List.all_takeWhile c hc
  have hlf : (10 : UInt8) ∈ data.dropWhile xdigit := by
    have hmem := h.whole
    rw [← List.takeWhile_append_dropWhile (p := xdigit) (l := data)] at hmem
    refine (List.mem_append.mp hmem).resolve_left ?_
    intro hin
    exact absurd (hdigits _ hin) (by decide)
  obtain ⟨d, rest, hrest⟩ := List.exists_cons_of_ne_nil (List.ne_nil_of_mem hlf)
  refine ⟨data.takeWhile xdigit, d, rest, ?_, ?_, hdigits, ?_, hrest ▸ hlf⟩
  · rw [← hrest, List.takeWhile_append_dropWhile]
  · have hdigit := h.digit
    cases data with
    | nil => cases hdigit
    | cons c cs =>
        have hc : xdigit c = true := hdigit
        rw [List.takeWhile_cons_of_pos hc]
        exact List.cons_ne_nil _ _
  · have hhead := List.head?_dropWhile_not xdigit data
    rw [hrest] at hhead
    simpa using hhead

theorem sizeOf_digits {ds : List UInt8} {d : UInt8} (hex : ∀ c ∈ ds, xdigit c = true)
    (hd : xdigit d = false) (tail : List UInt8) : sizeOf (ds ++ d :: tail) = hexValue ds := by
  rw [sizeOf, List.takeWhile_append_of_pos hex,
    List.takeWhile_cons_of_neg (by rw [hd]; exact Bool.false_ne_true), List.append_nil]

/-- What comes behind the line does not matter to the size. -/
theorem HasLine.sizeOf_append (h : HasLine data) (more : List UInt8) :
    sizeOf (data ++ more) = sizeOf data := by
  obtain ⟨ds, d, rest, rfl, -, hex, hd, -⟩ := h.exists_eq
  rw [List.append_assoc, List.cons_append, sizeOf_digits hex hd, sizeOf_digits hex hd]

/-- **A line in one piece** is parsed at once, and its size is what `strtol`
makes of it. -/
theorem parse_sized (h : parse buff true p data s = (.ok (some (p', rest)), s'))
    (hline : HasLine data) :
    p'.isFinished ≠ 0 ∧ p'.parser.contentLen = asInt (sizeOf data) ∧
      p'.parser.chunksDone = decide (asInt (sizeOf data) ≤ 0) := by
  obtain ⟨⟨n, hexec⟩, herror⟩ := execute_of_parse h
  obtain ⟨ds, d, tail, hdata, hne, hex, hd, hlf⟩ := hline.exists_eq
  have hsize : sizeOf data = hexValue ds := by
    rw [hdata, sizeOf_digits hex hd]
  obtain ⟨q, heq, hparser, -⟩ := execute_eq (p := p) (s := httpClientParserInit)
    (q := .start) (if_pos rfl) rfl rfl (List.ne_nil_of_mem hline.whole)
  obtain rfl : q = p' := by
    have hok := Except.ok.inj (heq.symm.trans hexec)
    exact (Prod.mk.inj (Prod.mk.inj hok).2).1
  rw [hsize]
  have hrun := exec_line hne hex hd hlf
  rw [← hdata] at hrun
  -- a line with an error would have closed the connection
  rcases hrun with hfailed | ⟨hends, hlen, hdone⟩
  · rw [HttpResponseParser.hasError, hparser, hfailed] at herror
    simp [endState, HttpClientParser.hasError] at herror
  · refine ⟨?_, ?_, ?_⟩
    · rw [HttpResponseParser.isFinished, hparser, hends]
      simp [endState, HttpClientParser.finish, HttpClientParser.hasError,
        HttpClientParser.isFinished, State.final]
    · rw [hparser]
      exact hlen
    · rw [hparser]
      exact hdone

variable (buff) in
/-- What the line before a chunk is first looked for in: the buffer, or, if it
is empty, what the next read brings. -/
def front (data : List UInt8) (s : Socket) : List UInt8 :=
  if data = [] then (s.recv buff.size).2.1 else data

/-- The loop over the line takes it from the front, if it is there. -/
theorem recvChunkHead_sized {fuel : Nat}
    (h : recvChunkHead buff (fuel + 1) true p data s = (.ok (some (p', rest)), s'))
    (hline : HasLine (front buff data s)) :
    p'.parser.contentLen = asInt (sizeOf (data ++ s.bytes)) ∧
      p'.parser.chunksDone = decide (asInt (sizeOf (data ++ s.bytes)) ≤ 0) := by
  -- the parser is run on the front, and goes no further
  obtain ⟨t, more, hbytes, hturn⟩ : ∃ t more, data ++ s.bytes = front buff data s ++ more ∧
      recvChunkHead buff (fuel + 1) true p data s =
        (parse buff true p (front buff data s) t).bind (afterParse buff fuel) := by
    by_cases hd : data = []
    · subst hd
      have hfront : front buff [] s = (s.recv buff.size).2.1 := if_pos rfl
      rw [recvChunkHead, if_pos (.inr rfl), readMore, List.length_nil, Nat.sub_zero] at h ⊢
      rw [hfront]
      rcases s.recv_cases buff.size with ⟨rt, got, t, hrecv, hle⟩ | ⟨-, k, hk, -, -, hrecv⟩
      · rw [hrecv] at h
        dsimp only at h
        rw [if_pos hle] at h
        cases h
      · rw [hrecv]
        dsimp only
        rw [if_neg (by omega), Received.bind_some]
        exact ⟨s.skip k, s.bytes.drop k, (List.take_append_drop k s.bytes).symm, rfl⟩
    · have hfront : front buff data s = data := if_neg hd
      rw [hfront]
      refine ⟨s, s.bytes, rfl, ?_⟩
      rw [recvChunkHead, if_neg (by simp [hd])]
      rfl
  rw [hbytes, hline.sizeOf_append]
  rw [hturn] at h
  rcases hparse : parse buff true p (front buff data s) t with ⟨_ | _ | ⟨p₁, left⟩, t'⟩
  · rw [hparse] at h
    cases h
  · rw [hparse] at h
    cases h
  · obtain ⟨hfin, hlen, hdone⟩ := parse_sized hparse hline
    rw [hparse, Received.bind_some, afterParse, if_pos hfin] at h
    cases h
    exact ⟨hlen, hdone⟩

end Line

namespace Turn

/-- The bytes that are left to read when the turn begins. -/
def bytes (t : Turn) : List UInt8 := t.buffer ++ t.socket.bytes

/-- The size that the peer announces. -/
def size (t : Turn) : Nat := sizeOf t.bytes

/-- The line before the chunk arrives in one read. -/
def LineInOneRead (buff : BuffSize) (t : Turn) : Prop :=
  HasLine (front buff t.buffer t.socket)

/-- **The size is handled safely**: what is computed is an `int`, every length
is one of valid bytes, and only a size of zero is taken as the last. -/
structure Safe (t : Turn) : Prop where
  ops : ∀ op ∈ t.ops, op.Safe
  last : t.size ≠ 0 → t.chunksDone = false

end Turn

/-- **The sizes that are handled safely**: zero, and those whose low 32 bits,
as a positive `int`, leave room for the line end. From `2^63` on, `strtol` gives
`LONG_MAX`. -/
def SizeOk (size : Nat) : Prop :=
  size = 0 ∨ (size < 2 ^ 63 ∧ 1 ≤ size % 2 ^ 32 ∧ size % 2 ^ 32 ≤ 2 ^ 31 - 3)

theorem asInt_zero : asInt 0 = 0 := by decide

/-- The sizes above zero that are safe. -/
theorem asInt_pos_iff (size : Nat) :
    (0 < asInt size ∧ asInt size + 2 < 2 ^ 31) ↔
      size < 2 ^ 63 ∧ 1 ≤ size % 2 ^ 32 ∧ size % 2 ^ 32 ≤ 2 ^ 31 - 3 := by
  unfold asInt toInt32
  -- below `2^63` the low 32 bits count, from there on it is -1
  by_cases h : size < 2 ^ 63
  · have hmin : min (size : Int) (2 ^ 63 - 1) = size := by omega
    rw [hmin, Int.bmod_def]
    split <;> omega
  · have hmin : min (size : Int) (2 ^ 63 - 1) = 2 ^ 63 - 1 := by omega
    have hneg : (2 ^ 63 - 1 : Int).bmod (2 ^ 32) = -1 := by decide
    rw [hmin, hneg]
    omega

/-- The turn is one of the loop: its line is parsed, and the data behind it
handled as the parser says. -/
def Turn.Run (buff : BuffSize) (t : Turn) : Prop :=
  ∃ fuel parser parser₁ data₁ body s₁,
    recvChunkHead buff (fuel + 1) true parser t.buffer t.socket =
        (.ok (some (parser₁, data₁)), s₁) ∧
      t.contentLen = parser₁.parser.contentLen ∧
      t.chunksDone = parser₁.parser.chunksDone ∧
      t.ops = dataOps buff t.contentLen body data₁ s₁

theorem mem_tracedChunks {fuel : Nat} {parser : HttpResponseParser}
    {data body : List UInt8} {s : Socket} :
    ∀ t ∈ (tracedChunks buff fuel parser data body s).1, t.Run buff := by
  induction fuel generalizing parser data body s with
  | zero => exact fun t h => absurd h List.not_mem_nil
  | succ fuel ih =>
      rw [tracedChunks]
      rcases hline : recvChunkHead buff (s.bytes.length + 2) true parser data s with
        ⟨_ | _ | ⟨parser₁, data₁⟩, s₁⟩
      · exact fun t h => absurd h List.not_mem_nil
      · exact fun t h => absurd h List.not_mem_nil
      · dsimp only
        set t₁ : Turn := ⟨data, s, parser₁.parser.contentLen, parser₁.parser.chunksDone,
          dataOps buff parser₁.parser.contentLen body data₁ s₁⟩ with ht₁
        have hrun : t₁.Run buff :=
          ⟨s.bytes.length + 1, parser, parser₁, data₁, body, s₁, hline, rfl, rfl, rfl⟩
        rcases recvChunkData buff parser₁.parser.contentLen body data₁ s₁ with
          ⟨_ | _ | ⟨body₂, data₂⟩, s₂⟩
        · exact List.forall_mem_singleton.mpr hrun
        · exact List.forall_mem_singleton.mpr hrun
        · dsimp only
          split
          · exact List.forall_mem_singleton.mpr hrun
          · exact List.forall_mem_cons.mpr ⟨hrun, ih⟩

/-- **One turn** is safe if and only if its size is. -/
theorem Turn.Run.safe_iff {t : Turn} (h : t.Run buff) (hline : t.LineInOneRead buff) :
    t.Safe ↔ SizeOk t.size := by
  obtain ⟨fuel, parser, parser₁, data₁, body, s₁, hhead, hlen, hdone, hops⟩ := h
  obtain ⟨hsized, hlast⟩ := recvChunkHead_sized hhead hline
  have hn : t.contentLen = asInt t.size := hlen.trans hsized
  have hd : t.chunksDone = decide (asInt t.size ≤ 0) := hdone.trans hlast
  have hpos := asInt_pos_iff t.size
  constructor
  · intro hsafe
    by_cases h0 : t.size = 0
    · exact .inl h0
    · right
      refine hpos.mp ⟨?_, ?_⟩
      · have := hsafe.last h0
        rw [hd, decide_eq_false_iff_not] at this
        omega
      · have hsum := hsafe.ops (.int (t.contentLen + 2))
          (by rw [hops, dataOps]; exact List.mem_cons_self)
        rw [← hn]
        exact hsum.2
  · intro hok
    -- zero is in range as well
    have hrange : 0 ≤ asInt t.size ∧ asInt t.size + 2 < 2 ^ 31 := by
      rcases hok with h0 | hok
      · rw [h0, asInt_zero]
        decide
      · have := hpos.mpr hok
        omega
    refine ⟨?_, ?_⟩
    · rw [hops, hn]
      exact dataOps_safe hrange.1 hrange.2
    · intro h0
      have := hpos.mpr (hok.resolve_left h0)
      rw [hd, decide_eq_false_iff_not]
      omega

theorem mem_chunkTurns {s : Socket} : ∀ t ∈ chunkTurns buff s, t.Run buff := by
  rw [chunkTurns]
  split
  · split
    · exact mem_tracedChunks buff
    · exact fun t h => absurd h List.not_mem_nil
  · exact fun t h => absurd h List.not_mem_nil

/-- **The sizes of chunks are handled safely in a run exactly if each of them
is one that is**, whatever the peer sends, and however it arrives as long as
every line before a chunk does in one read. -/
theorem turns_safe_iff (s : Socket)
    (hlines : ∀ t ∈ chunkTurns buff s, t.LineInOneRead buff) :
    (∀ t ∈ chunkTurns buff s, t.Safe) ↔ ∀ t ∈ chunkTurns buff s, SizeOk t.size := by
  have hturn : ∀ t ∈ chunkTurns buff s, (t.Safe ↔ SizeOk t.size) :=
    fun t ht => (mem_chunkTurns buff t ht).safe_iff buff (hlines t ht)
  constructor
  · intro h t ht
    exact (hturn t ht).mp (h t ht)
  · intro h t ht
    exact (hturn t ht).mpr (h t ht)

/-! ## Two runs -/

instance (data : List UInt8) : Decidable (HasLine data) :=
  decidable_of_iff (data.head?.any xdigit = true ∧ (10 : UInt8) ∈ data)
    ⟨fun h => ⟨h.1, h.2⟩, fun h => ⟨h.digit, h.whole⟩⟩

instance (t : Turn) : Decidable (t.LineInOneRead buff) :=
  inferInstanceAs (Decidable (HasLine _))

instance (size : Nat) : Decidable (SizeOk size) :=
  inferInstanceAs (Decidable (_ ∨ _))

/-- `GetHttpRequestBufferSize()` as it is configured. -/
def configuredBuff : BuffSize :=
  ⟨4 * 1024, BuffSize.configured_pos, BuffSize.configured_fits⟩

def chunkedArrival : Arrival where
  bytes := text "HTTP/1.1 200 OK\r\nTransfer-Encoding: chunked\r\n\r\n"
  nonempty := by decide +kernel
  fits := by decide +kernel

/-- A chunk of three bytes with an extension, in two reads, and the last
one. -/
def threeBytes : Socket where
  arrivals := [chunkedArrival,
    ⟨text "3;a=b\r\nab", by decide +kernel, by decide +kernel⟩,
    ⟨text "c\r\n0\r\n\r\n", by decide +kernel, by decide +kernel⟩]

theorem threeBytes_safe :
    (chunkTurns configuredBuff threeBytes).length = 2 ∧
      ∀ t ∈ chunkTurns configuredBuff threeBytes, t.Safe :=
  ⟨by decide +kernel,
    (turns_safe_iff configuredBuff threeBytes (by decide +kernel)).mpr (by decide +kernel)⟩

/-- A chunk of `2^32` bytes begins. -/
def fourGiB : Socket where
  arrivals := [chunkedArrival,
    ⟨text "100000000\r\nabc", by decide +kernel, by decide +kernel⟩]

/-- Its size is 0 as an `int`: it is taken as the last. -/
theorem fourGiB_not_safe :
    ¬∀ s : Socket, (∀ t ∈ chunkTurns configuredBuff s, t.LineInOneRead configuredBuff) →
      ∀ t ∈ chunkTurns configuredBuff s, t.Safe := by
  intro h
  have hsafe := h fourGiB (by decide +kernel)
  have hlast : (chunkTurns configuredBuff fourGiB).any
      (fun t => t.size != 0 && t.chunksDone) = true := by
    decide +kernel
  obtain ⟨t, ht, hboth⟩ := List.any_eq_true.mp hlast
  rw [Bool.and_eq_true, bne_iff_ne] at hboth
  have hmore := (hsafe t ht).last hboth.1
  rw [hboth.2] at hmore
  cases hmore

end Hps.Http.Response
