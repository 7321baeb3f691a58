import SafeMarkup.Configuration.Session
/-!
# Histories

The history of a run lists the requests that are made in it, those of sanitizers included, in the order in which they
begin.  A request meets the configuration that the requests before it have made of the first one, however deep the calls
are in which they were made, and whether the run has a result or not (`Session.recorded_history`).
-/
namespace SafeMarkup

/-- What a request itself makes of a configuration.  A sanitizer that it calls makes requests of its own. -/
def Request.effect (c : Configuration) : Request Sanitizer → Configuration
  | .register id f => if c.frozen then c else c.register id f
  | .setGate allowed => if c.frozen then c else { c with allowsUnsafe := allowed }
  | .freeze => c.freeze
  | _ => c

namespace Session

/-- A request that is made of a session, below which calls may go `depth` deep. -/
structure Act where
  depth : Nat
  request : Request Sanitizer
  session : Session

/-- The answer, and the session once it is given. -/
def Act.outcome (a : Act) : Option (Answer × Session) := ask a.depth a.request a.session

section

variable (depth : Nat) (calls : Sanitizer → Text → Session → List Act)

/-- A request, and those of the sanitizer that it calls. -/
def requestActs (r : Request Sanitizer) (s : Session) : List Act :=
  ⟨depth, r, s⟩ ::
    match r with
    | .sanitize id? raw =>
      (s.configuration.registry.find? (id?.getD Configuration.defaultId)).elim [] fun f => calls f raw s
    | _ => []

def routineActs : Routine → Session → List Act
  | .done _, _ => []
  | .note es next, s => routineActs next (s.note es)
  | .ask r next, s => requestActs depth calls r s ++ (ask depth r s).elim [] fun a => routineActs (next a.1) a.2

end

def callActs : Nat → Sanitizer → Text → Session → List Act
  | 0, _, _, _ => []
  | depth + 1, f, raw, s => routineActs depth (callActs depth) (f raw) s

/-- The requests of a run, in the order in which they begin.  A run that goes too deep ends there. -/
def history (depth : Nat) : List (Request Sanitizer) → Session → List Act
  | [], _ => []
  | r :: rs, s => requestActs depth (callActs depth) r s ++ (ask depth r s).elim [] fun a => history depth rs a.2

theorem ask_register_of_frozen {s : Session} (h : s.configuration.frozen = true) (depth : Nat) (id : Text)
    (f : Sanitizer) : ask depth (.register id f) s = some (.refused .configurationFrozen, s) :=
  congrArg some (if_pos h)

theorem ask_register_of_open {s : Session} (h : s.configuration.frozen = false) (depth : Nat) (id : Text)
    (f : Sanitizer) : ask depth (.register id f) s =
      some (.done, s.become (s.configuration.register id f) (.sanitizerRegistered id (s.configuration.has id))) :=
  congrArg some (if_neg (by simp [h]))

theorem askAll_cons (depth : Nat) (r : Request Sanitizer) (rs : List (Request Sanitizer)) (s : Session) :
    askAll depth (r :: rs) s =
      (ask depth r s).bind fun a => (askAll depth rs a.2).map fun as => (a.1 :: as.1, as.2) := by
  rw [askAll]
  cases ask depth r s with
  | none => rfl
  | some a =>
    change (askAll depth rs a.2).bind _ = (askAll depth rs a.2).map _
    cases askAll depth rs a.2 <;> rfl

theorem askAll_append (depth : Nat) : ∀ (rs rs' : List (Request Sanitizer)) (s : Session),
    askAll depth (rs ++ rs') s =
      (askAll depth rs s).bind fun a => (askAll depth rs' a.2).map fun b => (a.1 ++ b.1, b.2)
  | [], rs', s => by
    change _ = (askAll depth rs' s).map id
    rw [Option.map_id]
    rfl
  | r :: rs, rs', s => by
    rw [List.cons_append, askAll_cons, askAll_cons]
    cases ask depth r s with
    | none => rfl
    | some a =>
      rw [Option.bind_some, Option.bind_some, askAll_append depth rs rs' a.2, Option.map_bind, Option.bind_map]
      simp only [Function.comp_def, Option.map_map, List.cons_append]

/-! ## What is reported is not read -/

/-- The session with other events before its own. -/
def after (es : List Event) (s : Session) : Session := ⟨s.configuration, es ++ s.events⟩

section

variable (es : List Event)

theorem after_note (s : Session) (fs : List Event) : (s.after es).note fs = (s.note fs).after es :=
  congrArg (Session.mk s.configuration) (List.append_assoc es s.events fs)

theorem after_become (s : Session) (c : Configuration) (e : Event) :
    (s.after es).become c e = (s.become c e).after es :=
  congrArg (Session.mk c) (List.append_assoc es s.events [e])

theorem perform_after {call : Sanitizer → Text → Session → Option (Text × Session)}
    (hcall : ∀ f raw s, call f raw (s.after es) = (call f raw s).map fun r => (r.1, r.2.after es))
    (r : Request Sanitizer) (s : Session) :
    perform call r (s.after es) = (perform call r s).map fun a => (a.1, a.2.after es) := by
  cases r with
  | register id f =>
    change some (if s.configuration.frozen then _ else _) = (some (if s.configuration.frozen then _ else _)).map _
    split
    · rfl
    · exact congrArg (fun t => some (Answer.done, t)) (after_become es s _ _)
  | setGate allowed =>
    change some (if s.configuration.frozen then _ else _) = (some (if s.configuration.frozen then _ else _)).map _
    split
    · rfl
    · exact congrArg (fun t => some (Answer.done, t)) (after_become es s _ _)
  | freeze => exact congrArg (fun t => some (Answer.done, t)) (after_become es s _ _)
  | has id => rfl
  | ids => rfl
  | isFrozen => rfl
  | allowsUnsafe => rfl
  | sanitize id? raw =>
    cases hf : s.configuration.registry.find? (id?.getD Configuration.defaultId) with
    | none =>
      have hafter : (s.after es).configuration.registry.find? (id?.getD Configuration.defaultId) = none := hf
      simp only [perform, hf, hafter]
      rfl
    | some f =>
      have hafter : (s.after es).configuration.registry.find? (id?.getD Configuration.defaultId) = some f := hf
      simp only [perform, hf, hafter, hcall, Option.map_map]
      rfl
  | create raw =>
    change some (if s.configuration.allowsUnsafe then _ else _) =
      (some (if s.configuration.allowsUnsafe then _ else _)).map _
    split
    · exact congrArg (fun t => some (Answer.markup ⟨raw⟩, t)) (after_note es s _)
    · exact congrArg (fun t => some (Answer.refused .gateClosed, t)) (after_note es s _)

theorem runRoutine_after {call : Sanitizer → Text → Session → Option (Text × Session)}
    (hcall : ∀ f raw s, call f raw (s.after es) = (call f raw s).map fun r => (r.1, r.2.after es)) :
    ∀ (r : Routine) (s : Session),
      runRoutine call r (s.after es) = (runRoutine call r s).map fun r => (r.1, r.2.after es)
  | .done _, _ => rfl
  | .note fs next, s => by
    rw [runRoutine, runRoutine, after_note]
    exact runRoutine_after hcall next (s.note fs)
  | .ask r next, s => by
    rw [runRoutine, runRoutine, perform_after es hcall]
    cases perform call r s with
    | none => rfl
    | some a => exact runRoutine_after hcall (next a.1) a.2

theorem call_after : ∀ (depth : Nat) (f : Sanitizer) (raw : Text) (s : Session),
    call depth f raw (s.after es) = (call depth f raw s).map fun r => (r.1, r.2.after es)
  | 0, _, _, _ => rfl
  | depth + 1, f, raw, s => runRoutine_after es (call_after depth) (f raw) s

theorem ask_after (depth : Nat) (r : Request Sanitizer) (s : Session) :
    ask depth r (s.after es) = (ask depth r s).map fun a => (a.1, a.2.after es) :=
  perform_after es (call_after es depth) r s

/-- **No answer depends on what has been reported.** -/
theorem askAll_after (depth : Nat) : ∀ (rs : List (Request Sanitizer)) (s : Session),
    askAll depth rs (s.after es) = (askAll depth rs s).map fun a => (a.1, a.2.after es)
  | [], _ => rfl
  | r :: rs, s => by
    rw [askAll_cons, askAll_cons, ask_after]
    cases ask depth r s with
    | none => rfl
    | some a =>
      simp only [Option.map_some, Option.bind_some, askAll_after depth rs a.2, Option.map_map]
      rfl

end

/-! ## What a history makes of a configuration -/

def replay (c : Configuration) (as : List Act) : Configuration := as.foldl (fun c a => a.request.effect c) c

/-- Every request meets the configuration that those before it have made. -/
def Follows : Configuration → List Act → Prop
  | _, [] => True
  | c, a :: as => a.session.configuration = c ∧ Follows (a.request.effect c) as

/-- The requests that are made on the way from one session to another, if it is reached. -/
structure Recorded (s : Session) (as : List Act) (reached : Option Session) : Prop where
  follows : Follows s.configuration as
  reached : ∀ t ∈ reached, t.configuration = replay s.configuration as

theorem replay_append (c : Configuration) (as bs : List Act) : replay c (as ++ bs) = replay (replay c as) bs :=
  List.foldl_append

theorem follows_append : ∀ {as bs : List Act} {c : Configuration},
    Follows c (as ++ bs) ↔ Follows c as ∧ Follows (replay c as) bs
  | [], _, _ => by rw [List.nil_append, Follows, true_and]; rfl
  | a :: as, bs, c => by
    rw [List.cons_append, Follows, Follows, follows_append, and_assoc]
    rfl

/-- One run behind another. -/
theorem Recorded.bind {α β : Type} {s : Session} {as : List Act} {r : Option (α × Session)}
    {next : α × Session → List Act} {run : α × Session → Option (β × Session)} (h : Recorded s as (r.map (·.2)))
    (hnext : ∀ a ∈ r, Recorded a.2 (next a) ((run a).map (·.2))) :
    Recorded s (as ++ r.elim [] next) ((r.bind run).map (·.2)) := by
  cases r with
  | none =>
    rw [Option.elim_none, List.append_nil]
    exact ⟨h.follows, fun t ht => nomatch ht⟩
  | some a =>
    have ha := hnext a rfl
    have hreached := h.reached a.2 rfl
    refine ⟨follows_append.2 ⟨h.follows, hreached ▸ ha.follows⟩, fun t ht => ?_⟩
    rw [replay_append, ← hreached]
    exact ha.reached t ht

/-- A request that calls no sanitizer. -/
theorem recorded_one {depth : Nat} {r : Request Sanitizer} {s : Session} {a : Answer × Session}
    (h : a.2.configuration = r.effect s.configuration) : Recorded s [⟨depth, r, s⟩] ((some a).map (·.2)) := by
  refine ⟨⟨rfl, trivial⟩, fun t ht => ?_⟩
  obtain rfl := Option.some.inj ht
  exact h

theorem recorded_requestActs {depth : Nat} {calls : Sanitizer → Text → Session → List Act}
    (hcalls : ∀ f raw s, Recorded s (calls f raw s) ((call depth f raw s).map (·.2))) (r : Request Sanitizer)
    (s : Session) : Recorded s (requestActs depth calls r s) ((ask depth r s).map (·.2)) := by
  cases r with
  | register id f =>
    refine recorded_one ?_
    rw [Request.effect]
    split <;> rfl
  | setGate allowed =>
    refine recorded_one ?_
    rw [Request.effect]
    split <;> rfl
  | freeze => exact recorded_one rfl
  | has id => exact recorded_one rfl
  | ids => exact recorded_one rfl
  | isFrozen => exact recorded_one rfl
  | allowsUnsafe => exact recorded_one rfl
  | create raw =>
    refine recorded_one ?_
    split <;> rfl
  | sanitize id? raw =>
    -- looking a sanitizer up changes nothing: all that happens is what the sanitizer does
    rw [requestActs, ask, perform]
    cases s.configuration.registry.find? (id?.getD Configuration.defaultId) with
    | none => exact recorded_one rfl
    | some f =>
      have hf := hcalls f raw s
      refine ⟨⟨rfl, hf.follows⟩, fun t ht => hf.reached t ?_⟩
      rwa [Option.map_map] at ht

theorem recorded_routineActs {depth : Nat} {calls : Sanitizer → Text → Session → List Act}
    (hcalls : ∀ f raw s, Recorded s (calls f raw s) ((call depth f raw s).map (·.2))) :
    ∀ (r : Routine) (s : Session),
      Recorded s (routineActs depth calls r s) ((runRoutine (call depth) r s).map (·.2))
  | .done _, s => ⟨trivial, fun t ht => by obtain rfl := Option.some.inj ht; rfl⟩
  | .note es next, s =>
    have h := recorded_routineActs hcalls next (s.note es)
    ⟨h.follows, h.reached⟩
  | .ask r next, s =>
    (recorded_requestActs hcalls r s).bind fun a _ => recorded_routineActs hcalls (next a.1) a.2

theorem recorded_callActs : ∀ (depth : Nat) (f : Sanitizer) (raw : Text) (s : Session),
    Recorded s (callActs depth f raw s) ((call depth f raw s).map (·.2))
  | 0, _, _, _ => ⟨trivial, fun _ ht => nomatch ht⟩
  | depth + 1, f, raw, s => recorded_routineActs (recorded_callActs depth) (f raw) s

/-- **A run makes of a configuration what its history makes of it**, request by request. -/
theorem recorded_history (depth : Nat) : ∀ (rs : List (Request Sanitizer)) (s : Session),
    Recorded s (history depth rs s) ((askAll depth rs s).map (·.2))
  | [], s => ⟨trivial, fun t ht => by obtain rfl := Option.some.inj ht; rfl⟩
  | r :: rs, s => by
    rw [askAll_cons]
    refine (recorded_requestActs (recorded_callActs depth) r s).bind fun a _ => ?_
    rw [Option.map_map]
    exact recorded_history depth rs a.2

/-- Whatever comes after it, a request meets what the requests before it have made. -/
theorem configuration_of_history {depth : Nat} {rs : List (Request Sanitizer)} {s : Session} {earlier later : List Act}
    {a : Act} (h : history depth rs s = earlier ++ a :: later) :
    Follows s.configuration earlier ∧ a.session.configuration = replay s.configuration earlier := by
  have hfollows := (recorded_history depth rs s).follows
  rw [h] at hfollows
  obtain ⟨hearlier, ha, -⟩ := follows_append.1 hfollows
  exact ⟨hearlier, ha⟩

end Session
end SafeMarkup
