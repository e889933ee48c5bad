import SolidityHost.Proofs.Callback.Outcome

/-!
# Phases of an entry run

Once its input is in the heap, an entry run registers at most one slot, calls the entry point at
most once and reads the text behind what it returned. Then it releases the slot, frees the input and
resets the module, whatever came before. It ends with the first failure of these phases, or with the
text that was read.
-/

set_option autoImplicit false

namespace SolidityHost

variable {F σ S α β : Type}

abbrev Exchange (F : Type) := (o : Op F) × Outcome o.Answer

namespace Program

def exchanges (meaning : Meaning F σ S) (p : Program F σ α) (s : S × σ) : List (Exchange F) :=
  (p.trace meaning s).map fun e => ⟨e.1, (meaning e.1 e.2).1⟩

structure Goes (meaning : Meaning F σ S) (p : Program F σ α) (s : S × σ) (es : List (Exchange F))
    (r : Outcome α) (t : S × σ) : Prop where
  exchanges_eq : p.exchanges meaning s = es
  run_eq : p.run meaning s = (r, t)

variable {meaning : Meaning F σ S} {s t u : S × σ} {es es' : List (Exchange F)} {p : Program F σ α}
  {f : α → Program F σ β}

theorem answer_of_mem_exchanges {e : Exchange F} (h : e ∈ p.exchanges meaning s) :
    ∃ t, e.2 = (meaning e.1 t).1 := by
  obtain ⟨x, -, rfl⟩ := List.mem_map.1 h
  exact ⟨x.2, rfl⟩

theorem exchanges_attemptError (meaning : Meaning F σ S) (p : Program F σ α) (s : S × σ) :
    p.attemptError.exchanges meaning s = p.exchanges meaning s := by
  rw [exchanges, trace_attemptError, exchanges]

theorem exchanges_bind_of_run {a : α} (hp : p.run meaning s = (.ok a, t)) :
    (p >>= f).exchanges meaning s = p.exchanges meaning s ++ (f a).exchanges meaning t := by
  rw [exchanges, bind_eq, trace_bind, hp, List.map_append]
  rfl

theorem mem_exchanges_bind {e : Exchange F} (h : e ∈ p.exchanges meaning s) :
    e ∈ (p >>= f).exchanges meaning s := by
  obtain ⟨x, hx, rfl⟩ := List.mem_map.1 h
  exact List.mem_map_of_mem (mem_trace_bind hx)

namespace Goes

theorem finish (r : Outcome α) (s : S × σ) :
    (Program.finish r : Program F σ α).Goes meaning s [] r s := ⟨rfl, rfl⟩

theorem perform {o : Op F} {r : Outcome o.Answer} (h : meaning o s = (r, t)) :
    (Program.perform o : Program F σ o.Answer).Goes meaning s [⟨o, r⟩] r t where
  exchanges_eq := by
    show [(⟨o, (meaning o s).1⟩ : Exchange F)] = _
    rw [h]
  run_eq := h

theorem bind {a : α} {r : Outcome β} (hp : p.Goes meaning s es (.ok a) t)
    (hf : (f a).Goes meaning t es' r u) : (p >>= f).Goes meaning s (es ++ es') r u where
  exchanges_eq := by rw [exchanges_bind_of_run hp.run_eq, hp.exchanges_eq, hf.exchanges_eq]
  run_eq := by rw [bind_eq, run_bind, hp.run_eq, ← hf.run_eq]

theorem bind_finish {a : α} {g : α → Outcome β} (hp : p.Goes meaning s es (.ok a) t) :
    (p >>= fun a => .finish (g a)).Goes meaning s es (g a) t := by
  simpa using hp.bind (f := fun a => .finish (g a)) (.finish (g a) t)

theorem bind_error {failure : Failure} (hp : p.Goes meaning s es (.error failure) t) :
    (p >>= f).Goes meaning s es (.error failure) t where
  exchanges_eq := by
    rw [exchanges, bind_eq, trace_bind, hp.run_eq, List.append_nil]
    exact hp.exchanges_eq
  run_eq := by rw [bind_eq, run_bind, hp.run_eq]

theorem attempt {r : Outcome α} (hp : p.Goes meaning s es r t) :
    p.attempt.Goes meaning s es (.ok r) t where
  exchanges_eq := by rw [exchanges, trace_attempt, ← hp.exchanges_eq, exchanges]
  run_eq := by rw [run_attempt, hp.run_eq]

theorem attemptError {r : Except HostError α}
    (hp : p.Goes meaning s es (r.mapError .error) t) :
    p.attemptError.Goes meaning s es (.ok r) t where
  exchanges_eq := (exchanges_attemptError meaning p s).trans hp.exchanges_eq
  run_eq := by
    rw [run_attemptError, hp.run_eq]
    cases r <;> rfl

end Goes

end Program

namespace EntryRun

structure BodyPhases where
  registration : Option (Outcome Nat)
  call : Option (Outcome Value)
  reading : Option (Outcome String)
  release : Option (Outcome Unit)

/-- The outcomes of all phases. The input is always freed. -/
structure Phases extends BodyPhases where
  freeing : Outcome Unit
  reset : Option (Outcome Value)

def failure? : Outcome α → Option Failure
  | .ok _ => none
  | .error failure => some failure

@[simp] theorem failure?_ok (a : α) : failure? (.ok a : Outcome α) = none := rfl

@[simp] theorem failure?_error (f : Failure) : failure? (.error f : Outcome α) = some f := rfl

namespace BodyPhases

structure Follows (ph : BodyPhases) (service : Option (CallbackService σ)) : Prop where
  registration : ph.registration.isSome ↔ service.isSome
  call : ph.call.isSome ↔ ∀ failure, ph.registration ≠ some (.error failure)
  reading : ph.reading.isSome ↔ ∃ v, ph.call = some (.ok v)
  address : ∀ v failure, ph.call = some (.ok v) → v.address = .error failure →
    ph.reading = some (.error failure)
  release : ph.release.isSome ↔ ∃ slot, ph.registration = some (.ok slot)

variable {C : Type} (ph : BodyPhases)

def registrations (c : Primitives) (service : Option (CallbackService σ)) :
    List (Exchange (HostFunction C σ)) :=
  match service, ph.registration with
  | some s, some r => [⟨.register (.callbacks s.protocol c s.handlers), r⟩]
  | _, _ => []

def arguments (service : Option (CallbackService σ)) (args : List Value) : List Value :=
  match service, ph.registration with
  | some s, some (.ok slot) => args ++ callbackArguments s.protocol slot
  | _, _ => args

def calls (service : Option (CallbackService σ)) (symbol : String) (args : List Value) :
    List (Exchange (HostFunction C σ)) :=
  ph.call.toList.map fun r => ⟨.call symbol (ph.arguments service args), r⟩

def readings : List (Exchange F) :=
  match ph.call, ph.reading with
  | some (.ok (.pointer p)), some r => [⟨.readText p, r⟩]
  | _, _ => []

def releases : List (Exchange F) :=
  match ph.registration, ph.release with
  | some (.ok slot), some r => [⟨.release slot, r⟩]
  | _, _ => []

def exchanges (c : Primitives) (symbol : String) (args : List Value)
    (service : Option (CallbackService σ)) : List (Exchange (HostFunction C σ)) :=
  ph.registrations c service ++ ph.calls service symbol args ++ ph.readings ++ ph.releases

def firstFailure? : Option Failure :=
  ph.registration.bind failure? <|> ph.call.bind failure? <|> ph.reading.bind failure? <|>
    ph.release.bind failure?

end BodyPhases

def resets (c : Primitives) (reset : Option (Outcome Value)) : List (Exchange F) :=
  match c.reset, reset with
  | some symbol, some r => [⟨.call symbol [], r⟩]
  | _, _ => []

namespace Phases

structure Follows (ph : Phases) (c : Primitives) (service : Option (CallbackService σ)) : Prop where
  body : ph.toBodyPhases.Follows service
  reset : ph.reset.isSome ↔ c.reset.isSome

variable {C : Type} (ph : Phases)

def exchanges (c : Primitives) (symbol : String) (args : List Value)
    (service : Option (CallbackService σ)) (buffer : Word) : List (Exchange (HostFunction C σ)) :=
  ph.toBodyPhases.exchanges c symbol args service ++ [⟨.free buffer, ph.freeing⟩] ++ resets c ph.reset

def firstFailure? : Option Failure :=
  ph.toBodyPhases.firstFailure? <|> failure? ph.freeing <|> ph.reset.bind failure?

end Phases

/-- An outcome is the first failure if there is one, and else the text that was read. -/
def Ends (first : Option Failure) (reading : Option (Outcome String)) (r : Outcome String) : Prop :=
  match first with
  | some failure => r = .error failure
  | none => ∃ text, reading = some (.ok text) ∧ r = .ok text

open Program

variable {C : Type} {meaning : Meaning (HostFunction C σ) σ S} {c : Primitives} {s t : S × σ}
  {symbol input : String} {args extra : List Value} {service : Option (CallbackService σ)}
  {first : Option Failure} {reading : Option (Outcome String)} {r : Outcome String}

theorem exists_goes_callText (meaning : Meaning (HostFunction C σ) σ S) (symbol : String)
    (args : List Value) (s : S × σ) :
    ∃ call reading r t, (reading.isSome ↔ ∃ v, call = .ok v) ∧
      (∀ v failure, call = .ok v → v.address = .error failure → reading = some (.error failure)) ∧
      (callText symbol args : HostProgram C σ String).Goes meaning s
        (⟨.call symbol args, call⟩ ::
          BodyPhases.readings ⟨none, some call, reading, none⟩) r t ∧
      Ends (failure? call <|> reading.bind failure?) reading r := by
  rcases hcall : meaning (.call symbol args) s with ⟨failure | v, u⟩
  · exact ⟨.error failure, none, .error failure, u, by simp, nofun,
      (Goes.perform hcall).bind_error, rfl⟩
  · cases v with
    | pointer p =>
      rcases hread : meaning (.readText p) u with ⟨r, t⟩
      refine ⟨.ok (.pointer p), some r, r, t, by simp, ?_,
        (Goes.perform hcall).bind (.bind (.finish (.ok p) u) (.perform hread)), ?_⟩
      · rintro _ failure ⟨rfl⟩ haddress
        exact nomatch haddress
      · cases r with
        | ok text => exact ⟨text, rfl, rfl⟩
        | error failure => rfl
    | _ =>
      refine ⟨.ok _, some (refuse .notPointer), refuse .notPointer, u, by simp, ?_,
        (Goes.perform hcall).bind (.bind_error (.finish _ u)), rfl⟩
      rintro _ failure ⟨rfl⟩ haddress
      obtain rfl := Except.error.inj haddress
      rfl

def releaseSlot (slot : Nat) : Outcome α → HostProgram C σ α
  | .ok a => do
    Program.perform (.release slot)
    pure a
  | .error failure => do
    let _ ← Program.attempt (Program.perform (.release slot))
    Program.fail failure

theorem withSlot_eq (f : HostFunction C σ) (b : Nat → HostProgram C σ α) :
    withSlot f b =
      Program.perform (.register f) >>= fun slot => (b slot).attempt >>= releaseSlot slot := rfl

/-- The release is attempted in any case, and counts only if nothing failed before. -/
theorem Ends.release (h : Ends first reading r) (meaning : Meaning (HostFunction C σ) σ S)
    (slot : Nat) (s : S × σ) :
    ∃ release r' t,
      (releaseSlot slot r : HostProgram C σ String).Goes meaning s [⟨.release slot, release⟩] r' t ∧
      Ends (first <|> failure? release) reading r' := by
  rcases hrelease : meaning (.release slot) s with ⟨release, t⟩
  have hgoes := Goes.perform hrelease
  cases first with
  | some failure =>
    obtain rfl : r = .error failure := h
    exact ⟨release, .error failure, t, hgoes.attempt.bind (.finish _ t), rfl⟩
  | none =>
    obtain ⟨text, hreading, rfl⟩ := h
    cases release with
    | error failure => exact ⟨.error failure, .error failure, t, hgoes.bind_error, rfl⟩
    | ok _ => exact ⟨.ok (), .ok text, t, hgoes.bind (.finish _ t), text, hreading, rfl⟩

theorem exists_goes_body (meaning : Meaning (HostFunction C σ) σ S) (c : Primitives)
    (symbol : String) (args : List Value) (service : Option (CallbackService σ)) (s : S × σ) :
    ∃ (ph : BodyPhases) (r : Outcome String) (t : S × σ), ph.Follows service ∧
      (body c symbol args service).Goes meaning s (ph.exchanges c symbol args service) r t ∧
      Ends ph.firstFailure? ph.reading r := by
  cases service with
  | none =>
    obtain ⟨call, reading, r, t, hreading, haddress, hgoes, hends⟩ :=
      exists_goes_callText meaning symbol args s
    refine ⟨⟨none, some call, reading, none⟩, r, t, ?_, ?_, ?_⟩
    · exact ⟨by simp, by simp, by simpa using hreading, by simpa using haddress, by simp⟩
    · rw [BodyPhases.exchanges, BodyPhases.releases, List.append_nil]
      exact hgoes
    · simpa [BodyPhases.firstFailure?] using hends
  | some service =>
    rcases hregister : meaning (.register (.callbacks service.protocol c service.handlers)) s
      with ⟨failure | slot, u⟩
    · exact ⟨⟨some (.error failure), none, none, none⟩, .error failure, u,
        ⟨by simp, by simp, by simp, nofun, by simp⟩, (Goes.perform hregister).bind_error, rfl⟩
    · obtain ⟨call, reading, r, t, hreading, haddress, hgoes, hends⟩ :=
        exists_goes_callText meaning symbol (args ++ callbackArguments service.protocol slot) u
      obtain ⟨release, r', w, hrelease, hends'⟩ := hends.release meaning slot t
      refine ⟨⟨some (.ok slot), some call, reading, some release⟩, r', w, ?_, ?_, ?_⟩
      · exact ⟨by simp, by simp, by simpa using hreading, by simpa using haddress, by simp⟩
      · rw [body, withSlot_eq, BodyPhases.exchanges, List.append_assoc]
        exact (Goes.perform hregister).bind (hgoes.attempt.bind hrelease)
      · simpa [BodyPhases.firstFailure?, Option.or_assoc] using hends'

theorem exists_goes_resetAll (meaning : Meaning (HostFunction C σ) σ S) (c : Primitives)
    (s : S × σ) :
    ∃ (reset : Option (Outcome Value)) (r : Outcome Unit) (t : S × σ),
      (reset.isSome ↔ c.reset.isSome) ∧
      (c.resetAll : HostProgram C σ Unit).Goes meaning s (resets c reset) r t ∧
      failure? r = reset.bind failure? := by
  unfold Primitives.resetAll
  cases hreset : c.reset with
  | none => exact ⟨none, .ok (), s, by simp, by simpa [resets, hreset] using .finish _ s, rfl⟩
  | some symbol =>
    rcases hcall : meaning (.call symbol []) s with ⟨failure | v, t⟩
    · refine ⟨some (.error failure), .error failure, t, by simp, ?_, rfl⟩
      simpa [resets, hreset] using (Goes.perform hcall).bind_error
    · refine ⟨some (.ok v), .ok (), t, by simp, ?_, rfl⟩
      simpa [resets, hreset] using (Goes.perform hcall).bind (.finish _ t)

theorem exists_mapError {r : Outcome α} (h : ∀ a, r ≠ .error (.abort a)) :
    ∃ x : Except HostError α, r = x.mapError .error := by
  match r with
  | .ok a => exact ⟨.ok a, rfl⟩
  | .error (.error e) => exact ⟨.error e, rfl⟩
  | .error (.abort a) => exact absurd rfl (h a)

def CleansUpSafely (c : Primitives) (es : List (Exchange F)) : Prop :=
  ∀ e ∈ es, e.1.CleansUp c → ∀ a, e.2 ≠ .error (.abort a)

theorem reset_ne_abort {reset : Option (Outcome Value)} (hreset : reset.isSome ↔ c.reset.isSome)
    (h : CleansUpSafely c (resets c reset : List (Exchange F))) {r : Outcome α}
    (hr : failure? r = reset.bind failure?) (a : Abort) : r ≠ .error (.abort a) := by
  rintro rfl
  obtain ⟨call, rfl, hcall⟩ := Option.bind_eq_some_iff.1 hr.symm
  obtain ⟨symbol, hsymbol⟩ := Option.isSome_iff_exists.1 (hreset.1 rfl)
  have hmem : (⟨.call symbol [], call⟩ : Exchange F) ∈ resets c (some call) := by
    simp [resets, hsymbol]
  cases call with
  | ok v => exact nomatch hcall
  | error failure =>
    obtain rfl := Option.some.inj hcall
    exact h _ hmem hsymbol a rfl

def settle : Outcome String → Except HostError Unit → Except HostError Unit → Outcome String
  | .error failure, _, _ => .error failure
  | .ok _, .error e, _ => .error (.error e)
  | .ok _, .ok _, .error e => .error (.error e)
  | .ok text, .ok _, .ok _ => .ok text

theorem cleanUp_eq (c : Primitives) (buffer : Word) (r : Outcome String) :
    (cleanUp c buffer r : HostProgram C σ String) =
      Program.attemptError (Program.perform (.free buffer)) >>= fun freed =>
        c.resetAll.attemptError >>= fun done => .finish (settle r freed done) := by
  unfold cleanUp
  congr 1
  funext freed
  congr 1
  funext done
  rcases r with _ | _ <;> rcases freed with _ | _ <;> rcases done with _ | _ <;> rfl

theorem Ends.settle (h : Ends first reading r) (freed done : Except HostError Unit) :
    Ends (first <|> failure? (freed.mapError .error : Outcome Unit) <|>
      failure? (done.mapError .error : Outcome Unit)) reading (settle r freed done) := by
  cases first with
  | some failure =>
    obtain rfl : r = .error failure := h
    rfl
  | none =>
    obtain ⟨text, hreading, rfl⟩ := h
    rcases freed with e | _
    · rfl
    · rcases done with e | _
      · rfl
      · exact ⟨text, hreading, rfl⟩

/-- The input is freed and the module is reset in any case, and a failure of either counts only if
nothing failed before. -/
theorem Ends.cleanUp (h : Ends first reading r) (buffer : Word)
    (hsafe : CleansUpSafely c
      ((cleanUp c buffer r : HostProgram C σ String).exchanges meaning s)) :
    ∃ freeing reset r' t, (reset.isSome ↔ c.reset.isSome) ∧
      (cleanUp c buffer r : HostProgram C σ String).Goes meaning s
        (⟨.free buffer, freeing⟩ :: resets c reset) r' t ∧
      Ends (first <|> failure? freeing <|> reset.bind failure?) reading r' := by
  rw [cleanUp_eq] at hsafe ⊢
  rcases hfree : meaning (.free buffer) s with ⟨freeing, u⟩
  have hfreeing := Goes.perform hfree
  have hfreed : ∃ freed : Except HostError Unit, freeing = freed.mapError .error := by
    refine exists_mapError (hsafe ⟨.free buffer, freeing⟩ (mem_exchanges_bind ?_) trivial)
    rw [exchanges_attemptError, hfreeing.exchanges_eq]
    exact List.mem_cons_self
  obtain ⟨freed, rfl⟩ := hfreed
  have hfreed := hfreeing.attemptError
  obtain ⟨reset, r', t, hsome, hresetting, hfail⟩ := exists_goes_resetAll meaning c u
  have hdone : ∃ done : Except HostError Unit, r' = done.mapError .error := by
    refine exists_mapError (reset_ne_abort (F := HostFunction C σ) hsome (fun e he => ?_) hfail)
    refine hsafe e ?_
    rw [exchanges_bind_of_run hfreed.run_eq]
    refine List.mem_append_right _ (mem_exchanges_bind ?_)
    rwa [exchanges_attemptError, hresetting.exchanges_eq]
  obtain ⟨done, rfl⟩ := hdone
  exact ⟨freed.mapError .error, reset, EntryRun.settle r freed done, t, hsome,
    hfreed.bind hresetting.attemptError.bind_finish, hfail ▸ h.settle freed done⟩

theorem BodyPhases.Follows.firstFailure?_of_call {ph : BodyPhases} (hf : ph.Follows service)
    {failure : Failure} (hcall : ph.call = some (.error failure)) :
    ph.firstFailure? = some failure := by
  have hregistered := hf.call.1 (by rw [hcall]; rfl)
  have hnone : ph.registration.bind failure? = none := by
    match hr : ph.registration with
    | none => rfl
    | some (.ok slot) => rfl
    | some (.error failure) => exact absurd hr (hregistered failure)
  simp [firstFailure?, hnone, hcall]

/-- Once the input is in the heap, a run goes through its phases in their order: it registers at
most one slot, calls the entry point at most once and reads its text, releases what it registered,
frees the input once, and resets the module once if that is possible. It ends with the failure of the
earliest phase that failed, so with what the entry point raised if that unwound, and else with the
text as it was before the clean-up. -/
theorem run_phases {buffer : Word}
    (hbuffer : (allocateText input : HostProgram C σ Word).run meaning s = (.ok buffer, t))
    (hsafe : CleansUpSafely c
      ((run c symbol input extra service : HostProgram C σ String).exchanges meaning s)) :
    ∃ ph : Phases, ph.Follows c service ∧
      (run c symbol input extra service).exchanges meaning s =
        (allocateText input : HostProgram C σ Word).exchanges meaning s ++
          ph.exchanges c symbol (.pointer buffer :: extra) service buffer ∧
      (∀ a, ph.call = some (.error (.abort a)) →
        ((run c symbol input extra service).run meaning s).1 = .error (.abort a)) ∧
      Ends ph.firstFailure? ph.reading ((run c symbol input extra service).run meaning s).1 := by
  obtain ⟨body, r, u, hbody, hgoes, hends⟩ :=
    exists_goes_body meaning c symbol (.pointer buffer :: extra) service t
  rw [run_eq] at hsafe ⊢
  rw [exchanges_bind_of_run hbuffer, exchanges_bind_of_run hgoes.attempt.run_eq] at hsafe
  obtain ⟨freeing, reset, r', w, hreset, hclean, hends'⟩ := hends.cleanUp buffer
    fun e he => hsafe e (List.mem_append_right _ (List.mem_append_right _ he))
  have hrun := Goes.bind (f := fun buffer => (EntryRun.body c symbol (.pointer buffer :: extra)
    service).attempt >>= cleanUp c buffer) ⟨rfl, hbuffer⟩ (hgoes.attempt.bind hclean)
  rw [hrun.exchanges_eq, hrun.run_eq]
  refine ⟨⟨body, freeing, reset⟩, ⟨hbody, hreset⟩, ?_, fun a ha => ?_, hends'⟩
  · simp [Phases.exchanges]
  · rw [hbody.firstFailure?_of_call ha] at hends'
    exact hends'

def stubborn : Meaning (HostFunction Empty Unit) Unit Unit := fun o s =>
  match o with
  | .exports _ => (.ok true, s)
  | .call symbol _ =>
    (if symbol = "solidity_compile" then .error (.abort (.raised "compiler aborted"))
      else refuse .notSlot, s)
  | .invoke slot _ => (.error (.error (.slotNotFound slot)), s)
  | .register _ => (.ok 7, s)
  | .release slot => (.error (.error (.slotNotFound slot)), s)
  | .allocate _ => (.ok 8, s)
  | .free _ => (refuse .outOfBounds, s)
  | .readText _ => (refuse .unterminated, s)
  | .writeBytes _ _ => (.ok (), s)
  | .readWord _ => (refuse .outOfBounds, s)
  | .writeWord _ _ => (refuse .outOfBounds, s)

def stubbornPrimitives : Primitives := ⟨"solidity_version", none, .heap, some "solidity_reset"⟩

def stubbornRun : HostProgram Empty Unit String :=
  run stubbornPrimitives "solidity_compile" "\x7b\x7d" [] (some ⟨.kinded, .none⟩)

theorem safe_stubborn (p : HostProgram Empty Unit α) :
    CleansUpSafely stubbornPrimitives (p.exchanges stubborn ((), ())) := by
  rintro ⟨o, r⟩ he hclean a
  obtain ⟨t, hr : r = (stubborn o t).1⟩ := answer_of_mem_exchanges he
  subst hr
  cases o with
  | release slot => simp [stubborn]
  | free p => simp [stubborn, refuse]
  | call symbol args =>
    obtain rfl : "solidity_reset" = symbol := Option.some.inj hclean
    simp [stubborn, refuse]
  | _ => exact hclean.elim

theorem run_phases_stubborn :
    (stubbornRun.run stubborn ((), ())).1 = .error (.abort (.raised "compiler aborted")) ∧
    ∃ ph : Phases, ph.Follows stubbornPrimitives (some (⟨.kinded, .none⟩ : CallbackService Unit)) ∧
      stubbornRun.exchanges stubborn ((), ()) =
        (allocateText "\x7b\x7d" : HostProgram Empty Unit Word).exchanges stubborn ((), ()) ++
          ph.exchanges stubbornPrimitives "solidity_compile" [.pointer 8]
            (some ⟨.kinded, .none⟩) 8 ∧
      Ends ph.firstFailure? ph.reading (.error (.abort (.raised "compiler aborted"))) := by
  have hbuffer : (allocateText "\x7b\x7d" : HostProgram Empty Unit Word).run stubborn ((), ()) =
      (.ok 8, ((), ())) := rfl
  obtain ⟨ph, hfollows, hexchanges, -, hends⟩ := run_phases hbuffer (safe_stubborn stubbornRun)
  exact ⟨rfl, ph, hfollows, hexchanges, hends⟩

end EntryRun

end SolidityHost
