import SolidityHost.Proofs.Native.History

/-!
# Failures of callbacks

A failure of a callback is kept until the outermost call of an entry point ends, and ends that call.
Behind it no function runs for native code. The functions that are in progress when the first
callback fails may fail too; the failure of the last one of them is the one that is raised.
-/

set_option autoImplicit false

namespace SolidityHost.Native

variable {C σ α : Type} {code : C → List Value → HostProgram C σ Value} {m n k : Native C σ}

structure Idle (m : Native C σ) : Prop where
  depth_eq : m.depth = 0
  pending_eq : m.pending = none

def Event.failure? (code : C → List Value → HostProgram C σ Value) : Event C σ → Option Failure
  | .left d => d.failure? code
  | _ => none

def Event.Silent (code : C → List Value → HostProgram C σ Value) : Event C σ → Prop
  | .reached d => d.Ignored code
  | _ => True

def failures (code : C → List Value → HostProgram C σ Value) (l : List (Record C σ)) :
    List Failure :=
  l.filterMap (·.event.failure? code)

/-- Behind a callback that fails, native code is ignored. -/
def Quelled (code : C → List Value → HostProgram C σ Value) (l : List (Record C σ)) : Prop :=
  l.Pairwise fun x y => (x.event.failure? code).isSome → y.event.Silent code

/-- Callbacks end only behind where they began. -/
def Bracketed (l : List (Record C σ)) : Prop :=
  ∀ l₁ x l₂, l = l₁ ++ x :: l₂ → ∀ d, x.event = .left d → ∃ y ∈ l₁, y.event = .reached d

section

variable {l l' : List (Record C σ)} {x : Record C σ}

theorem failures_append : failures code (l ++ l') = failures code l ++ failures code l' :=
  List.filterMap_append

theorem failures_cons_of_none (h : x.event.failure? code = none) :
    failures code (x :: l) = failures code l := List.filterMap_cons_none h

theorem failures_cons_of_some {f : Failure} (h : x.event.failure? code = some f) :
    failures code (x :: l) = f :: failures code l := List.filterMap_cons_some h

theorem failures_singleton : failures code [x] = (x.event.failure? code).toList := by
  cases h : x.event.failure? code with
  | none => exact failures_cons_of_none h
  | some f => exact failures_cons_of_some h

theorem failures_ne_nil (hx : x ∈ l) (h : (x.event.failure? code).isSome) :
    failures code l ≠ [] := by
  obtain ⟨f, hf⟩ := Option.isSome_iff_exists.1 h
  exact List.ne_nil_of_mem (List.mem_filterMap.2 ⟨x, hx, hf⟩)

end

structure Latches (code : C → List Value → HostProgram C σ Value) (m : Native C σ)
    (l : List (Record C σ)) (n : Native C σ) : Prop where
  depth_eq : n.depth = m.depth
  idle : m.Idle → n.pending = none
  pending_eq : 0 < m.depth → n.pending = (failures code l).getLast?.or m.pending
  silent : 0 < m.depth → m.pending.isSome → ∀ x ∈ l, x.event.Silent code
  quelled : 0 < m.depth → Quelled code l

namespace Latches

theorem of_eq {l : List (Record C σ)} (hd : n.depth = m.depth) (hp : n.pending = m.pending)
    (hf : ∀ x ∈ l, x.event.failure? code = none) (hs : ∀ x ∈ l, x.event.Silent code) :
    Latches code m l n where
  depth_eq := hd
  idle h := hp.trans h.pending_eq
  pending_eq _ := by
    have hnone : failures code l = [] := List.filterMap_eq_nil_iff.2 hf
    rw [hnone, hp]
    rfl
  silent _ _ := hs
  quelled _ := List.pairwise_of_forall_mem_list fun _ _ y hy _ => hs y hy

theorem single {x : Record C σ} (hd : n.depth = m.depth) (hp : n.pending = m.pending)
    (hf : x.event.failure? code = none) (hs : x.event.Silent code) : Latches code m [x] n :=
  of_eq hd hp (by simpa using hf) (by simpa using hs)

theorem append {l l' : List (Record C σ)} (h : Latches code m l n) (h' : Latches code n l' k) :
    Latches code m (l ++ l') k where
  depth_eq := h'.depth_eq.trans h.depth_eq
  idle hm := h'.idle ⟨h.depth_eq.trans hm.depth_eq, h.idle hm⟩
  pending_eq hm := by
    rw [h'.pending_eq (h.depth_eq ▸ hm), h.pending_eq hm, failures_append, List.getLast?_append,
      Option.or_assoc]
  silent hm hp x hx := by
    have hn : n.pending.isSome := by
      rw [h.pending_eq hm]
      simp [hp]
    rcases List.mem_append.1 hx with hx | hx
    · exact h.silent hm hp x hx
    · exact h'.silent (h.depth_eq ▸ hm) hn x hx
  quelled hm := by
    refine List.pairwise_append.2 ⟨h.quelled hm, h'.quelled (h.depth_eq ▸ hm), ?_⟩
    intro x hx y hy hf
    have hn : n.pending.isSome := by
      rw [h.pending_eq hm]
      have hlast := List.getLast?_isSome.2 (failures_ne_nil hx hf)
      simp [hlast]
    exact h'.silent (h.depth_eq ▸ hm) hn y hy

/-- A callback whose function runs. Its own failure, if there is one, takes the place of the last
failure that its function met. -/
theorem answered {d : Dispatch C σ} {l : List (Record C σ)} (hd : d.Heeded)
    (hpos : 0 < d.before.1.depth)
    (h : Latches code d.before.1 l (answer code d.runner d.protocol d.args d.before).2.1) :
    Latches code d.before.1
      (⟨.reached d, d.before.1.table⟩ :: (l ++ [⟨.left d, (d.after code).1.table⟩]))
      (d.after code).1 := by
  -- Nothing is kept when the callback is reached, or it would not be heeded.
  have hnone : d.before.1.pending = none := Option.isNone_iff_eq_none.1 hd.2
  have hf : failures code
      (⟨.reached d, d.before.1.table⟩ :: (l ++ [⟨.left d, (d.after code).1.table⟩])) =
        failures code l ++ (d.failure? code).toList := by
    rw [failures_cons_of_none rfl, failures_append, failures_singleton]
    rfl
  refine ⟨?_, ?_, ?_, ?_, ?_⟩
  · rw [Dispatch.after_of_heeded hd]
    exact h.depth_eq
  · intro hm
    rw [hm.depth_eq] at hpos
    contradiction
  · intro _
    have hpending : (d.after code).1.pending =
        (d.failure? code).or ((failures code l).getLast?.or d.before.1.pending) := by
      rw [Dispatch.after_of_heeded hd, ← h.pending_eq hpos]
    rw [hpending, hf, List.getLast?_append, Option.or_assoc]
    cases d.failure? code <;> rfl
  · intro _ hp
    rw [hnone] at hp
    contradiction
  · intro _
    refine List.pairwise_cons.2 ⟨fun y _ hy => (nomatch hy), List.pairwise_append.2
      ⟨h.quelled hpos, List.pairwise_singleton _ _, fun x _ y hy _ => ?_⟩⟩
    obtain rfl := List.mem_singleton.1 hy
    trivial

theorem call {l : List (Record C σ)} (hs : Steady m.enter n) (h : Latches code m.enter l n) :
    Latches code m l (n.exit m.current) where
  depth_eq := (hs.exit).depth_eq
  idle hm := by
    have hdepth : n.depth - 1 = 0 := by
      rw [hs.depth_eq]
      exact hm.depth_eq
    simp [exit, settle, hdepth]
  pending_eq hm := by
    have hdepth : n.depth - 1 ≠ 0 := by
      rw [hs.depth_eq]
      exact Nat.pos_iff_ne_zero.1 hm
    have hp : n.pending = (failures code l).getLast?.or m.pending := h.pending_eq (Nat.succ_pos _)
    simpa [exit, settle, hdepth] using hp
  silent _ hp := h.silent (Nat.succ_pos _) hp
  quelled _ := h.quelled (Nat.succ_pos _)

theorem explains (code : C → List Value → HostProgram C σ Value) : Explains code (Latches code) where
  nil m := of_eq rfl rfl (fun _ hx => nomatch hx) (fun _ hx => nomatch hx)
  append := append
  memory m memory := of_eq rfl rfl (fun _ hx => nomatch hx) (fun _ hx => nomatch hx)
  register m f := single rfl rfl rfl trivial
  release _ := single rfl rfl rfl trivial
  invoke := by
    intro m slot f l n hf h
    have hbegin : Latches code m [⟨.began slot f, (m.checkOut slot f).table⟩] (m.checkOut slot f) :=
      single rfl rfl rfl trivial
    exact hbegin.append (h.append (single rfl rfl rfl trivial))
  ignored := by
    intro d hd _
    have hreached : Latches code d.before.1 [⟨.reached d, d.before.1.table⟩] d.before.1 :=
      single rfl rfl rfl (Dispatch.ignored_of_not_heeded hd)
    exact hreached.append (single rfl rfl (Dispatch.failure?_of_not_heeded hd) trivial)
  answered := answered
  call := call

end Latches

namespace Bracketed

theorem nil : Bracketed ([] : List (Record C σ)) := by
  intro l₁ x l₂ heq
  simp at heq

theorem of_ne {l : List (Record C σ)} (h : ∀ x ∈ l, ∀ d, x.event ≠ .left d) : Bracketed l := by
  intro l₁ x l₂ heq d hd
  have hx : x ∈ l := by
    rw [heq]
    simp
  exact absurd hd (h x hx d)

theorem append {l l' : List (Record C σ)} (h : Bracketed l) (h' : Bracketed l') :
    Bracketed (l ++ l') := by
  intro l₁ x l₂ heq d hd
  rcases List.append_eq_append_iff.1 heq with ⟨a, rfl, ha⟩ | ⟨b, rfl, hb⟩
  · obtain ⟨y, hy, hyd⟩ := h' a x l₂ ha d hd
    exact ⟨y, List.mem_append_right _ hy, hyd⟩
  · cases b with
    | nil =>
      obtain ⟨y, hy, -⟩ := h' [] x l₂ hb.symm d hd
      exact nomatch hy
    | cons z b =>
      obtain ⟨rfl, -⟩ := List.cons.inj hb
      exact h l₁ x b rfl d hd

theorem around {l : List (Record C σ)} (h : Bracketed l) (d : Dispatch C σ)
    (t u : Table (HostFunction C σ)) : Bracketed (⟨.reached d, t⟩ :: (l ++ [⟨.left d, u⟩])) := by
  intro l₁ x l₂ heq e he
  cases l₁ with
  | nil =>
    obtain ⟨rfl, -⟩ := List.cons.inj heq
    contradiction
  | cons z l₁ =>
    obtain ⟨rfl, htail⟩ := List.cons.inj heq
    by_cases hx : x = ⟨.left d, u⟩
    · obtain rfl : d = e := by
        rw [hx] at he
        exact Event.left.inj he
      exact ⟨_, List.mem_cons_self .., rfl⟩
    · rcases List.append_eq_append_iff.1 htail with ⟨a, rfl, ha⟩ | ⟨b, rfl, hb⟩
      · have hmem : x ∈ [(⟨.left d, u⟩ : Record C σ)] := by
          rw [ha]
          simp
        exact absurd (List.mem_singleton.1 hmem) hx
      · cases b with
        | nil => exact absurd (List.cons.inj hb).1 hx
        | cons z b =>
          obtain ⟨rfl, -⟩ := List.cons.inj hb
          obtain ⟨y, hy, hye⟩ := h l₁ x b rfl e he
          exact ⟨y, List.mem_cons_of_mem _ hy, hye⟩

theorem explains (code : C → List Value → HostProgram C σ Value) :
    Explains code fun _ l _ => Bracketed l where
  nil _ := nil
  append := append
  memory _ _ := nil
  register _ _ := of_ne (by simp)
  release _ := of_ne (by simp)
  invoke := by
    intro m slot f l n _ h
    have hbegin : Bracketed [(⟨.began slot f, (m.checkOut slot f).table⟩ : Record C σ)] :=
      of_ne (by simp)
    exact hbegin.append (h.append (of_ne (by simp)))
  ignored _ _ := nil.around _ _ _
  answered _ _ h := h.around _ _ _
  call _ h := h

end Bracketed

/-- No entry point runs between the operations of a program, and no failure is kept there. -/
theorem Idle.run (hm : m.Idle) (depth : Nat) (p : HostProgram C σ α) (w : σ) :
    (p.run (Meaning.nested (perform code) depth) (m, w)).2.1.Idle := by
  obtain ⟨hs, hr⟩ := (Latches.explains code).run depth p (m, w)
  exact ⟨hs.depth_eq.trans hm.depth_eq, hr.idle hm⟩

theorem Idle.call (hm : m.Idle) (depth : Nat) (symbol : String) (args : List Value) (w : σ) :
    Quelled code (history code depth (.call symbol args) (m, w)) ∧
      ∀ f, (failures code (history code depth (.call symbol args) (m, w))).getLast? = some f →
        (Meaning.nested (perform code) depth (.call symbol args) (m, w)).1 = .error f := by
  obtain ⟨runner, logger, hmeaning, hhistory, hl⟩ := (Latches.explains code).exists_runner depth
  rw [hmeaning, hhistory, observe]
  cases hc : m.entered? symbol args with
  | none =>
    refine ⟨.nil, fun f hf => ?_⟩
    simp [failures] at hf
  | some c =>
    obtain ⟨hs, hr⟩ := (Latches.explains code).observeCode hl c (m.enter, w) (Nat.succ_pos _)
    refine ⟨hr.quelled (Nat.succ_pos _), fun f hf => ?_⟩
    have hdepth : (execute code runner c (m.enter, w)).2.1.depth - 1 = 0 := by
      rw [hs.depth_eq]
      exact hm.depth_eq
    have hp := hr.pending_eq (Nat.succ_pos _)
    rw [hf, Option.some_or] at hp
    rw [perform, call_of_some code runner (m, w) hc rfl]
    exact leave_eq_error _ hdepth hp

inductive Reaction where
  | forgive
  | complain
  | panic
  deriving DecidableEq, Repr

def reactions : Reaction → List Value → HostProgram Reaction Unit Value
  | .forgive, _ => do
    let _ ← (Program.perform (.call "inner" [])).attempt
    pure .void
  | .complain, _ => do
    let _ ← (Program.perform (.call "inner" [])).attempt
    Program.raise (.unsupported (.stated "second"))
  | .panic, _ => Program.fail (.abort (.raised "first"))

def reacting (r : Reaction) : Native Reaction Unit :=
  { (load 0 ⟨⟨[]⟩, [("outer", fun _ => .callback .importOnly [0, 0, 0] (.finish 0)),
      ("inner", fun _ => .callback .kinded [0, 0, 0, 0, 0] (.finish 0))]⟩ "" :
        Native Reaction Unit) with
    table := [.idle (.custom .importOnly r), .idle (.custom .kinded .panic)] }

theorem idle_reacting (r : Reaction) : (reacting r).Idle := ⟨rfl, rfl⟩

/-- No failure of a callback is lost: it ends the outermost call, no function runs for native code
behind it, and behind the call the module is as if no entry point had run. -/
theorem callback_failure_surfaces (hm : m.Idle) (depth : Nat) (symbol : String) (args : List Value)
    (w : σ) :
    ((∃ x ∈ history code depth (.call symbol args) (m, w), (x.event.failure? code).isSome) →
      ∃ f, (Meaning.nested (perform code) depth (.call symbol args) (m, w)).1 = .error f) ∧
    Quelled code (history code depth (.call symbol args) (m, w)) ∧
    ∃ n w', (Meaning.nested (perform code) depth (.call symbol args) (m, w)).2 = (n, w') ∧
      n.depth = 0 ∧ n.pending = none ∧ n.current = m.current := by
  obtain ⟨hquelled, hraised⟩ := hm.call depth symbol args w
  have hidle : (Meaning.nested (perform code) depth (.call symbol args) (m, w)).2.1.Idle :=
    hm.run depth (Program.perform _) w
  have hsteady := ((Latches.explains code).history depth (.call symbol args) (m, w)).1
  refine ⟨?_, hquelled, _, _, rfl, hidle.depth_eq, hidle.pending_eq, hsteady.current_eq⟩
  rintro ⟨x, hx, hf⟩
  obtain ⟨f, hlast⟩ := Option.isSome_iff_exists.1 (List.getLast?_isSome.2 (failures_ne_nil hx hf))
  exact ⟨f, hraised f hlast⟩

/-- A function that goes on behind a failure which it does not see does not hide it. -/
theorem callback_failure_surfaces_forgiving :
    (reacting .forgive).Idle ∧
      failures reactions (history reactions 3 (.call "outer" []) (reacting .forgive, ())) =
        [.abort (.raised "first")] ∧
      ((∃ x ∈ history reactions 3 (.call "outer" []) (reacting .forgive, ()),
          (x.event.failure? reactions).isSome) →
        ∃ f, (Meaning.nested (perform reactions) 3 (.call "outer" [])
          (reacting .forgive, ())).1 = .error f) ∧
      Quelled reactions (history reactions 3 (.call "outer" []) (reacting .forgive, ())) ∧
      ∃ n w', (Meaning.nested (perform reactions) 3 (.call "outer" [])
          (reacting .forgive, ())).2 = (n, w') ∧
        n.depth = 0 ∧ n.pending = none ∧ n.current = (reacting .forgive).current :=
  ⟨idle_reacting _, by decide +kernel,
    callback_failure_surfaces (idle_reacting _) 3 "outer" [] ()⟩

/-- Behind a callback that fails only callbacks that were in progress then can fail. The outermost
call is ended by the last of them, or by the callback itself if none of them fails. -/
theorem call_raises_last (hm : m.Idle) (depth : Nat) (symbol : String) (args : List Value) (w : σ)
    {l₁ l₂ : List (Record C σ)} {x : Record C σ} {first : Failure}
    (hl : history code depth (.call symbol args) (m, w) = l₁ ++ x :: l₂)
    (hx : x.event.failure? code = some first) :
    (Meaning.nested (perform code) depth (.call symbol args) (m, w)).1 =
        .error ((failures code l₂).getLast?.getD first) ∧
      ∀ y ∈ l₂, ∀ d, y.event = .left d → (d.failure? code).isSome →
        ∃ z ∈ l₁, z.event = .reached d := by
  obtain ⟨hquelled, hraised⟩ := hm.call depth symbol args w
  rw [hl] at hquelled hraised
  constructor
  · apply hraised
    rw [failures_append, failures_cons_of_some hx, List.getLast?_append, List.getLast?_cons,
      Option.some_or]
  · intro y hy d hd hf
    obtain ⟨a, b, rfl⟩ := List.append_of_mem hy
    have hbracketed := ((Bracketed.explains code).history depth (.call symbol args) (m, w)).2
    obtain ⟨z, hz, hzd⟩ := hbracketed (l₁ ++ x :: a) y b (by rw [hl]; simp) d hd
    rcases List.mem_append.1 hz with hz | hz
    · exact ⟨z, hz, hzd⟩
    rcases List.mem_cons.1 hz with rfl | hz
    · rw [hzd] at hx
      contradiction
    · have hsilent : z.event.Silent code :=
        (List.pairwise_cons.1 (List.pairwise_append.1 hquelled).2.1).1 z
          (List.mem_append_left _ hz) (by rw [hx]; rfl)
      rw [hzd] at hsilent
      obtain ⟨f, hf⟩ := Option.isSome_iff_exists.1 hf
      exact absurd hsilent (Dispatch.not_ignored_of_failure? hf)

theorem failures_complaining :
    failures reactions (history reactions 3 (.call "outer" []) (reacting .complain, ())) =
      [.abort (.raised "first"), .error (.unsupported (.stated "second"))] := by
  decide +kernel

theorem call_raises_last_complaining :
    (reacting .complain).Idle ∧
      ∃ l₁ x l₂, history reactions 3 (.call "outer" []) (reacting .complain, ()) =
          l₁ ++ x :: l₂ ∧
        x.event.failure? reactions = some (.abort (.raised "first")) ∧
        (Meaning.nested (perform reactions) 3 (.call "outer" []) (reacting .complain, ())).1 =
          .error ((failures reactions l₂).getLast?.getD (.abort (.raised "first"))) ∧
        ∀ y ∈ l₂, ∀ d, y.event = .left d → (d.failure? reactions).isSome →
          ∃ z ∈ l₁, z.event = .reached d := by
  obtain ⟨l₁, x, l₂, hl, -, hx, -⟩ := List.filterMap_eq_cons_iff.1 failures_complaining
  exact ⟨idle_reacting _, l₁, x, l₂, hl, hx,
    call_raises_last (idle_reacting _) 3 "outer" [] () hl hx⟩

/-- A panic that ends a callback is replaced by the error that the function around it raises. -/
theorem exists_replaced_panic :
    (reacting .complain).Idle ∧
      failures reactions (history reactions 3 (.call "outer" []) (reacting .complain, ())) =
        [.abort (.raised "first"), .error (.unsupported (.stated "second"))] ∧
      (Meaning.nested (perform reactions) 3 (.call "outer" []) (reacting .complain, ())).1 =
        .error (.error (.unsupported (.stated "second"))) :=
  ⟨idle_reacting _, failures_complaining, rfl⟩

end SolidityHost.Native
