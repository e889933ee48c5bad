import SolidityHost.Proofs.Host.Trace
import SolidityHost.Simulated

/-!
# Questions of a compiler

A callback poses a question to the host, or it is refused. Which of the two is decided by its
arguments and the heap alone, before the host is asked: the number of arguments, a null context, the
text of the kind, its name and the text of the data are checked in this order. A question is put to
one handler, once; a refused callback leaves the module and the host as they were.
-/

set_option autoImplicit false

namespace SolidityHost

variable {C F σ S α β : Type}

namespace Program

variable {meaning : Meaning F σ S} {s : S × σ} {p q r : Program F σ α}

def hostTrace (meaning : Meaning F σ S) : Program F σ α → S × σ → List ((σ → σ) × (S × σ))
  | .finish _, _ => []
  | .host change next, (m, w) => (change, (m, w)) :: hostTrace meaning (next w) (m, change w)
  | .op o next, s => hostTrace meaning (next (meaning o s).1) (meaning o s).2

theorem hostTrace_bind (meaning : Meaning F σ S) (p : Program F σ α) (f : α → Program F σ β)
    (s : S × σ) :
    (p.bind f).hostTrace meaning s =
      p.hostTrace meaning s ++
        match p.run meaning s with
        | (.ok a, s) => (f a).hostTrace meaning s
        | (.error _, _) => [] := by
  induction p generalizing s with
  | finish r => cases r <;> rfl
  | host change next ih => exact congrArg (List.cons (change, s)) (ih s.2 (s.1, change s.2))
  | op o next ih => exact ih _ _

structure Alike (meaning : Meaning F σ S) (s : S × σ) (p q : Program F σ α) : Prop where
  run_eq : p.run meaning s = q.run meaning s
  hostTrace_eq : p.hostTrace meaning s = q.hostTrace meaning s

theorem Alike.refl (meaning : Meaning F σ S) (s : S × σ) (p : Program F σ α) :
    Alike meaning s p p := ⟨rfl, rfl⟩

theorem Alike.trans (h : Alike meaning s p q) (h' : Alike meaning s q r) : Alike meaning s p r :=
  ⟨h.run_eq.trans h'.run_eq, h.hostTrace_eq.trans h'.hostTrace_eq⟩

theorem Alike.bind (h : Alike meaning s p q) (f : α → Program F σ β) :
    Alike meaning s (p >>= f) (q.bind f) where
  run_eq := by rw [bind_eq, run_bind, run_bind, h.run_eq]
  hostTrace_eq := by rw [bind_eq, hostTrace_bind, hostTrace_bind, h.run_eq, h.hostTrace_eq]

def Hostless : Program F σ α → Prop
  | .finish _ => True
  | .host _ _ => False
  | .op _ next => ∀ r, (next r).Hostless

theorem Hostless.bind (hp : p.Hostless) {f : α → Program F σ β} (hf : ∀ a, (f a).Hostless) :
    (p >>= f).Hostless := by
  induction p with
  | finish r =>
    cases r with
    | ok a => exact hf a
    | error e => trivial
  | host change next ih => exact hp.elim
  | op o next ih => exact fun r => ih r (hp r)

theorem Hostless.perform (o : Op F) : (perform o : Program F σ o.Answer).Hostless :=
  fun _ => trivial

theorem Hostless.ofOutcome (r : Outcome α) : (ofOutcome r : Program F σ α).Hostless := trivial

theorem Hostless.hostTrace_eq (hp : p.Hostless) (s : S × σ) : p.hostTrace meaning s = [] := by
  induction p generalizing s with
  | finish r => rfl
  | host change next ih => exact hp.elim
  | op o next ih => exact ih _ (hp _) _

end Program

open Program

theorem Primitives.copyText_hostless (c : Primitives) (text : String) (out : Word) :
    (c.copyText text out : Program F σ Unit).Hostless := by
  have hcheck : ∀ p : Word, (if p = 0 then raise (.internal (.allocatorFailed (Utf8.width text + 1)))
      else pure p : Program F σ Word).Hostless := by
    intro p
    split <;> trivial
  have hallocate : (c.allocate (Utf8.width text + 1) : Program F σ Word).Hostless := by
    unfold Primitives.allocate
    cases c.allocator with
    | entry symbol => exact .bind (.perform _) fun _ => .bind (.ofOutcome _) hcheck
    | heap => exact .bind (.perform _) hcheck
  apply hallocate.bind
  intro p
  apply Hostless.bind (.perform _)
  intro _
  exact .bind (.perform _) fun _ => .perform _

theorem Callback.deliver_hostless (c : Primitives) (reply : Reply) (contents error : Value) :
    (deliver c reply contents error : HostProgram C σ Value).Hostless := by
  apply Hostless.bind (.ofOutcome _)
  intro p
  apply Hostless.bind (.ofOutcome _)
  intro q
  cases reply with
  | contents text => exact .bind (c.copyText_hostless text p) fun _ => trivial
  | error text => exact .bind (c.copyText_hostless text q) fun _ => trivial

namespace CallbackKind

theorem ofName_name (kind : CallbackKind) : ofName kind.name = .ok kind := by
  cases kind <;> rfl

theorem ofName_of_forall_ne {text : String} (h : ∀ kind : CallbackKind, text ≠ kind.name) :
    ofName text = .error (.unknownKind text) := by
  rw [ofName, if_neg (h .source), if_neg (h .query)]

end CallbackKind

namespace Simulated

variable {code : C → List Value → HostProgram C σ Value}
  {runner : Runner (HostFunction C σ) σ (Simulated C σ)} {m : Simulated C σ} {s : Simulated C σ × σ}
  {protocol : Protocol} {args : List Value}

structure Question where
  kind : CallbackKind
  data : String
  contents : Value
  error : Value

def textAt (m : Simulated C σ) (v : Value) : Outcome String := v.address.bind m.readText

/-- The arguments pass every check, and this is what they ask. -/
inductive Poses (m : Simulated C σ) : Protocol → List Value → Question → Prop
  | importOnly {path contents error : Value} {data : String} (hdata : m.textAt path = .ok data) :
      Poses m .importOnly [path, contents, error] ⟨.source, data, contents, error⟩
  | kinded {name path contents error : Value} {kind : CallbackKind} {data : String}
      (hkind : m.textAt name = .ok kind.name) (hdata : m.textAt path = .ok data) :
      Poses m .kinded [.null, name, path, contents, error] ⟨kind, data, contents, error⟩

/-- The first check that the arguments fail, and its error. -/
inductive Refused (m : Simulated C σ) : Protocol → List Value → HostError → Prop
  | arity {protocol : Protocol} {args : List Value} (hargs : args.length ≠ protocol.arity) :
      Refused m protocol args (.invalidArgument .callbackArity)
  | context {context name path contents error : Value} (hcontext : context ≠ .null) :
      Refused m .kinded [context, name, path, contents, error] .contextNotNull
  | kind {name path contents error : Value} {e : HostError}
      (hkind : m.textAt name = .error (.error e)) :
      Refused m .kinded [.null, name, path, contents, error] e
  | name {name path contents error : Value} {text : String} (htext : m.textAt name = .ok text)
      (hname : ∀ kind : CallbackKind, text ≠ kind.name) :
      Refused m .kinded [.null, name, path, contents, error] (.unknownKind text)
  | path {path contents error : Value} {e : HostError} (hdata : m.textAt path = .error (.error e)) :
      Refused m .importOnly [path, contents, error] e
  | data {name path contents error : Value} {kind : CallbackKind} {e : HostError}
      (hkind : m.textAt name = .ok kind.name) (hdata : m.textAt path = .error (.error e)) :
      Refused m .kinded [.null, name, path, contents, error] e

theorem textAt_cases (m : Simulated C σ) (v : Value) :
    (∃ text, m.textAt v = .ok text) ∨ ∃ e, m.textAt v = .error (.error e) := by
  cases v with
  | pointer p =>
    show (∃ text, m.readText p = .ok text) ∨ ∃ e, m.readText p = .error (.error e)
    unfold readText
    split
    · dsimp only
      split
      · split
        · exact .inl ⟨_, rfl⟩
        · exact .inr ⟨_, rfl⟩
      · exact .inr ⟨_, rfl⟩
    · exact .inr ⟨_, rfl⟩
  | _ => exact .inr ⟨_, rfl⟩

/-- Arguments that are as many as the callback takes pass all further checks or fail one. -/
theorem poses_or_refused (m : Simulated C σ) (protocol : Protocol) (args : List Value) :
    (∃ q, m.Poses protocol args q) ∨ ∃ e, m.Refused protocol args e := by
  by_cases hargs : args.length = protocol.arity
  · match protocol, args, hargs with
    | .importOnly, [path, contents, error], _ =>
      obtain ⟨data, hdata⟩ | ⟨e, hdata⟩ := m.textAt_cases path
      · exact .inl ⟨_, .importOnly hdata⟩
      · exact .inr ⟨_, .path hdata⟩
    | .kinded, [context, name, path, contents, error], _ =>
      by_cases hcontext : context = .null
      · subst hcontext
        obtain ⟨text, htext⟩ | ⟨e, htext⟩ := m.textAt_cases name
        · by_cases hname : ∃ kind : CallbackKind, text = kind.name
          · obtain ⟨kind, rfl⟩ := hname
            obtain ⟨data, hdata⟩ | ⟨e, hdata⟩ := m.textAt_cases path
            · exact .inl ⟨_, .kinded htext hdata⟩
            · exact .inr ⟨_, .data htext hdata⟩
          · exact .inr ⟨_, .name htext fun kind h => hname ⟨kind, h⟩⟩
        · exact .inr ⟨_, .kind htext⟩
      · exact .inr ⟨_, .context hcontext⟩
  · exact .inr ⟨_, .arity hargs⟩

theorem Poses.length_eq {q : Question} (h : m.Poses protocol args q) :
    args.length = protocol.arity := by
  cases h <;> rfl

theorem Poses.not_refused {q : Question} (h : m.Poses protocol args q) (e : HostError) :
    ¬ m.Refused protocol args e := by
  intro hr
  cases hr with
  | arity hargs => exact hargs h.length_eq
  | context hcontext =>
    cases h
    contradiction
  | kind hkind =>
    cases h with
    | kinded hkind' => exact nomatch hkind.symm.trans hkind'
  | name htext hname =>
    cases h with
    | kinded hkind => exact hname _ (Except.ok.inj (htext.symm.trans hkind))
  | path hdata =>
    cases h with
    | importOnly hdata' => exact nomatch hdata.symm.trans hdata'
  | data _ hdata =>
    cases h with
    | kinded _ hdata' => exact nomatch hdata.symm.trans hdata'

def Question.serve (q : Question) (c : Primitives) (h : Handlers σ) : HostProgram C σ Value :=
  (Callback.ask h q.kind q.data).bind fun reply => Callback.deliver c reply q.contents q.error

theorem alike_readTextAt (s : Simulated C σ × σ) (v : Value) :
    Alike (perform code runner) s (Callback.readTextAt v) (.finish (s.1.textAt v)) := by
  cases v <;> exact ⟨rfl, rfl⟩

theorem alike_readTextAt_bind {v : Value} {r : Outcome String} (hr : s.1.textAt v = r)
    (f : String → HostProgram C σ α) :
    Alike (perform code runner) s (Callback.readTextAt v >>= f)
      ((Program.finish r : HostProgram C σ String).bind f) :=
  hr ▸ (alike_readTextAt s v).bind f

theorem alike_serveKinded {name path contents error : Value} {kind : CallbackKind} {c : Primitives}
    {handlers : Handlers σ} (hkind : s.1.textAt name = .ok kind.name) :
    Alike (perform code runner) s
      (Callback.serveKinded c handlers .null name path contents error)
      (Callback.readTextAt path >>= fun data =>
        Question.serve ⟨kind, data, contents, error⟩ c handlers) := by
  apply (alike_readTextAt_bind hkind _).trans
  rw [Program.bind, CallbackKind.ofName_name]
  exact .refl _ _ _

theorem Poses.alike {q : Question} (h : s.1.Poses protocol args q) (c : Primitives)
    (handlers : Handlers σ) :
    Alike (perform code runner) s ((HostFunction.callbacks protocol c handlers).program code args)
      (q.serve c handlers) := by
  cases h with
  | importOnly hdata => exact alike_readTextAt_bind hdata _
  | kinded hkind hdata => exact (alike_serveKinded hkind).trans (alike_readTextAt_bind hdata _)

theorem Refused.alike {e : HostError} (h : s.1.Refused protocol args e) (c : Primitives)
    (handlers : Handlers σ) :
    Alike (perform code runner) s ((HostFunction.callbacks protocol c handlers).program code args)
      (raise e) := by
  cases h with
  | arity hargs =>
    unfold HostFunction.program HostFunction.protocol
    rw [if_neg hargs]
    exact .refl _ _ _
  | context hcontext =>
    show Alike _ s (Callback.serveKinded _ _ _ _ _ _ _) _
    rw [Callback.serveKinded, if_neg (by simpa [Value.isNull] using hcontext)]
    exact .refl _ _ _
  | kind hkind => exact alike_readTextAt_bind hkind _
  | name htext hname =>
    apply (alike_readTextAt_bind htext _).trans
    rw [Program.bind, CallbackKind.ofName_of_forall_ne hname]
    exact .refl _ _ _
  | path hdata => exact alike_readTextAt_bind hdata _
  | data hkind hdata => exact (alike_serveKinded hkind).trans (alike_readTextAt_bind hdata _)

section

variable (q : Question) (c : Primitives) (h : Handlers σ)

theorem serve_eq :
    (q.serve c h : HostProgram C σ Value) =
      .host (fun w => (h.answer q.kind q.data w).2) fun w =>
        match (h.answer q.kind q.data w).1 with
        | .ok reply => Callback.deliver c reply q.contents q.error
        | .error a => fail (.abort a) := by
  refine congrArg (Program.host _) (funext fun w => ?_)
  dsimp only
  cases (h.answer q.kind q.data w).1 <;> rfl

theorem hostTrace_serve (s : Simulated C σ × σ) :
    (q.serve c h).hostTrace (perform code runner) s =
      [(fun w => (h.answer q.kind q.data w).2, s)] := by
  rw [serve_eq]
  refine congrArg (List.cons _) (Hostless.hostTrace_eq ?_ _)
  dsimp only
  cases (h.answer q.kind q.data s.2).1 with
  | ok reply => exact Callback.deliver_hostless c reply _ _
  | error a => trivial

theorem run_serve (s : Simulated C σ × σ) :
    (q.serve c h).run (perform code runner) s =
      match h.answer q.kind q.data s.2 with
      | (.ok reply, w) =>
        (Callback.deliver c reply q.contents q.error).run (perform code runner) (s.1, w)
      | (.error a, w) => (.error (.abort a), (s.1, w)) := by
  rw [serve_eq]
  show (Program.run _ (match (h.answer q.kind q.data s.2).1 with
    | .ok reply => Callback.deliver c reply q.contents q.error
    | .error a => fail (.abort a)) (s.1, (h.answer q.kind q.data s.2).2)) = _
  obtain ⟨reply | a, w⟩ := h.answer q.kind q.data s.2 <;> rfl

end

/-- A callback runs a handler exactly if its arguments pose a question: one handler, once, with the
data that was asked for. Where none is set for the kind, a fixed error is delivered instead. Any
other callback changes nothing and ends in the error of the first check that fails. -/
theorem callback_decided (code : C → List Value → HostProgram C σ Value)
    (runner : Runner (HostFunction C σ) σ (Simulated C σ)) (c : Primitives) (protocol : Protocol)
    (h : Handlers σ) (args : List Value) (s : Simulated C σ × σ) :
    let callback : HostProgram C σ Value :=
      (HostFunction.callbacks protocol c h).program code args
    let deliver := fun (q : Question) reply w =>
      (Callback.deliver c reply q.contents q.error).run (perform code runner) (s.1, w)
    let handlerOf : CallbackKind → Option (Handler σ) := fun kind =>
      match kind with
      | .source => h.importer
      | .query => h.solver
    ((∃ q, s.1.Poses protocol args q) ↔ ∀ e, ¬ s.1.Refused protocol args e) ∧
      (∀ e, s.1.Refused protocol args e →
        callback.hostTrace (perform code runner) s = [] ∧
          callback.run (perform code runner) s = (.error (.error e), s)) ∧
      ∀ q, s.1.Poses protocol args q →
        match handlerOf q.kind with
        | some handler =>
          callback.hostTrace (perform code runner) s = [(fun w => (handler q.data w).2, s)] ∧
            callback.run (perform code runner) s =
              match handler q.data s.2 with
              | (.ok reply, w) => deliver q reply w
              | (.error a, w) => (.error (.abort a), (s.1, w))
        | none =>
          callback.hostTrace (perform code runner) s = [(id, s)] ∧
            callback.run (perform code runner) s =
              deliver q (.error q.kind.unsupportedMessage) s.2 := by
  intro callback deliver handlerOf
  refine ⟨⟨fun ⟨q, hq⟩ => hq.not_refused, fun hn => ?_⟩, fun e he => ?_, fun q hq => ?_⟩
  · exact (s.1.poses_or_refused protocol args).resolve_right fun ⟨e, he⟩ => hn e he
  · exact ⟨(he.alike c h).hostTrace_eq, (he.alike c h).run_eq⟩
  · have hrouted : h.handler? q.kind = handlerOf q.kind := by cases q.kind <;> rfl
    rw [(hq.alike c h).hostTrace_eq, (hq.alike c h).run_eq, hostTrace_serve, run_serve]
    cases hhandler : handlerOf q.kind with
    | some handler =>
      have hanswer : h.answer q.kind = handler := by
        rw [Handlers.answer, hrouted, hhandler, Option.getD_some]
      rw [hanswer]
      exact ⟨rfl, rfl⟩
    | none =>
      have hanswer : h.answer q.kind = fun _ w => (.ok (.error q.kind.unsupportedMessage), w) := by
        rw [Handlers.answer, hrouted, hhandler, Option.getD_none]
      rw [hanswer]
      exact ⟨rfl, rfl⟩

end Simulated

end SolidityHost
