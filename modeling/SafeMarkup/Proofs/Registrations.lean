import SafeMarkup.Proofs.Histories
import SafeMarkup.Configuration.Stock
import Mathlib.Data.List.Lex
import Mathlib.Data.Char
/-!
# The last registration counts

A registry is what a log of registrations leaves: of two with one id the later one counts, and the ids are listed in
their order, each once.  In a run from a configuration that was built, the log is what it was built from and what has
been registered since; and a configuration can as well be built by one request after another
(`Session.last_registration_counts`).
-/
namespace SafeMarkup

namespace Registry

/-- What is registered last under an id, by a log that begins with what was registered first. -/
def last? (log : List (Text × Sanitizer)) (id : Text) : Option Sanitizer := log.reverse.lookup id

def extend (r : Registry) (log : List (Text × Sanitizer)) : Registry := log.foldl (fun r e => insert e.1 e.2 r) r

theorem last?_cons (e : Text × Sanitizer) (log : List (Text × Sanitizer)) (id : Text) :
    last? (e :: log) id = (last? log id).or (if id = e.1 then some e.2 else none) := by
  rw [last?, List.reverse_cons, List.lookup_append, List.lookup_cons, List.lookup_nil, last?]
  by_cases h : id = e.1
  · rw [if_pos h, beq_iff_eq.2 h]
  · rw [if_neg h, beq_eq_false_iff_ne.2 h]

theorem last?_eq_none_iff {log : List (Text × Sanitizer)} {id : Text} : last? log id = none ↔ id ∉ log.map (·.1) := by
  rw [last?, List.lookup_eq_none_iff]
  simp only [List.mem_reverse, bne_iff_ne, List.mem_map, not_exists, not_and]
  exact forall₂_congr fun e _ => ne_comm

/-- **A registry finds what was registered last.** -/
theorem find?_extend (id : Text) : ∀ (log : List (Text × Sanitizer)) (r : Registry),
    (extend r log).find? id = (last? log id).or (r.find? id)
  | [], _ => rfl
  | e :: log, r => by
    have hrest := find?_extend id log (insert e.1 e.2 r)
    rw [find?_insert] at hrest
    rw [last?_cons, Option.or_assoc]
    refine hrest.trans (congrArg _ ?_)
    split <;> rfl

theorem mem_ids_insert {id k : Text} {f : Sanitizer} : ∀ {r : Registry}, k ∈ ids (insert id f r) ↔ k = id ∨ k ∈ ids r
  | [] => by simp [insert, ids]
  | (j, g) :: r => by
    have hrest := @mem_ids_insert id k f r
    unfold insert
    split
    · rename_i hj
      subst hj
      simp [ids]
    · split
      · simp [ids]
      · simp only [ids, List.map_cons, List.mem_cons] at hrest ⊢
        rw [hrest, or_left_comm]

theorem mem_ids_extend {k : Text} : ∀ {log : List (Text × Sanitizer)} {r : Registry},
    k ∈ ids (extend r log) ↔ k ∈ log.map (·.1) ∨ k ∈ ids r
  | [], r => by simp [extend]
  | e :: log, r => by
    have hrest := @mem_ids_extend k log (insert e.1 e.2 r)
    rw [mem_ids_insert, or_left_comm] at hrest
    rw [List.map_cons, List.mem_cons, or_assoc]
    exact hrest

theorem pairwise_ids_insert (id : Text) (f : Sanitizer) : ∀ {r : Registry}, (ids r).Pairwise (· < ·) →
    (ids (insert id f r)).Pairwise (· < ·)
  | [], _ => List.pairwise_singleton _ _
  | (j, g) :: r, h => by
    obtain ⟨hj, hr⟩ := List.pairwise_cons.1 h
    unfold insert
    split
    · rename_i he
      subst he
      exact h
    · rename_i hne
      split
      · rename_i hlt
        refine List.pairwise_cons.2 ⟨fun k hk => ?_, h⟩
        rcases List.mem_cons.1 hk with rfl | hk
        · exact hlt
        · exact lt_trans hlt (hj k hk)
      · rename_i hge
        refine List.pairwise_cons.2 ⟨fun k hk => ?_, pairwise_ids_insert id f hr⟩
        rcases mem_ids_insert.1 hk with rfl | hk
        · exact lt_of_le_of_ne (not_lt.1 hge) (Ne.symm hne)
        · exact hj k hk

theorem pairwise_ids_extend : ∀ (log : List (Text × Sanitizer)) {r : Registry}, (ids r).Pairwise (· < ·) →
    (ids (extend r log)).Pairwise (· < ·)
  | [], _, h => h
  | e :: log, _, h => pairwise_ids_extend log (pairwise_ids_insert e.1 e.2 h)

end Registry

/-- The requests that make the configuration of a draft from the empty one. -/
def Draft.requests (d : Draft) : List (Request Sanitizer) :=
  d.entries.map (fun e => .register e.1 e.2) ++ .setGate d.allowsUnsafe :: if d.freezes then [.freeze] else []

namespace Session

/-- The registration that a request is, if it was made. -/
def Act.registered? (a : Act) : Option (Text × Sanitizer) :=
  match a.request, a.outcome with
  | .register id f, some (.done, _) => some (id, f)
  | _, _ => none

def registered (as : List Act) : List (Text × Sanitizer) := as.filterMap Act.registered?

/-- The request is answered from a log of registrations. -/
structure Act.Consults (log : List (Text × Sanitizer)) (a : Act) : Prop where
  /-- A sanitizer is run to its end as it was found, whatever it makes of the configuration on the way. -/
  sanitize : ∀ id? raw, a.request = .sanitize id? raw → ∀ f,
    Registry.last? log (id?.getD Configuration.defaultId) = some f →
      a.outcome = (call a.depth f raw a.session).map fun r => (.markup ⟨r.1⟩, r.2)
  unknown : ∀ id? raw, a.request = .sanitize id? raw →
    ((∃ why t, a.outcome = some (.refused why, t)) ↔ id?.getD Configuration.defaultId ∉ log.map (·.1)) ∧
    ∀ why t, a.outcome = some (.refused why, t) →
      why = .unknownSanitizer (id?.getD Configuration.defaultId) ∧ t = a.session
  has : ∀ id, a.request = .has id → a.outcome = some (.flag (decide (id ∈ log.map (·.1))), a.session)
  ids : a.request = .ids → ∃ ids, a.outcome = some (.ids ids, a.session) ∧ ids.Pairwise (· < ·) ∧
    ∀ id, id ∈ ids ↔ id ∈ log.map (·.1)

/-! ## The log of a run -/

theorem registry_effect (a : Act) :
    (a.request.effect a.session.configuration).registry =
      Registry.extend a.session.configuration.registry a.registered?.toList := by
  obtain ⟨depth, r, s⟩ := a
  cases r with
  | register id f =>
    cases h : s.configuration.frozen with
    | true =>
      simp only [Act.registered?, Act.outcome, ask_register_of_frozen h, Request.effect, h]
      rfl
    | false =>
      simp only [Act.registered?, Act.outcome, ask_register_of_open h, Request.effect, h]
      rfl
  | setGate allowed =>
    change (if s.configuration.frozen then s.configuration else _).registry = s.configuration.registry
    split <;> rfl
  | _ => rfl

theorem registry_replay : ∀ {as : List Act} {c : Configuration}, Follows c as →
    (replay c as).registry = Registry.extend c.registry (registered as)
  | [], _, _ => rfl
  | a :: as, c, h => by
    obtain ⟨hmeets, hfollows⟩ := h
    subst hmeets
    have hrest := registry_replay hfollows
    rw [registry_effect] at hrest
    refine hrest.trans ?_
    rw [registered, registered, List.filterMap_cons]
    cases a.registered? <;> rfl

theorem registry_build (d : Draft) : d.build.registry = Registry.extend [] d.entries := by
  rw [Draft.build]
  split <;> rfl

theorem consults {log : List (Text × Sanitizer)} {a : Act}
    (h : a.session.configuration.registry = Registry.extend [] log) : a.Consults log := by
  have hfind : ∀ id, a.session.configuration.registry.find? id = Registry.last? log id := fun id => by
    rw [h, Registry.find?_extend]
    exact Option.or_none
  obtain ⟨depth, r, s⟩ := a
  refine ⟨?_, ?_, ?_, ?_⟩
  · rintro id? raw rfl f hf
    rw [← hfind] at hf
    rw [Act.outcome, ask, perform]
    simp only [hf]
  · rintro id? raw rfl
    rw [← Registry.last?_eq_none_iff, ← hfind, Act.outcome, ask, perform]
    cases s.configuration.registry.find? (id?.getD Configuration.defaultId) with
    | none => simp
    | some f => cases call depth f raw s <;> simp
  · rintro id rfl
    have hhas : s.configuration.has id = decide (id ∈ log.map (·.1)) := by
      rw [Configuration.has, hfind id, Bool.eq_iff_iff, decide_eq_true_iff, ← not_iff_not, Bool.not_eq_true,
        Option.isSome_eq_false_iff, Option.isNone_iff_eq_none, Registry.last?_eq_none_iff]
    exact congrArg (fun b => some (Answer.flag b, s)) hhas
  · rintro rfl
    refine ⟨s.configuration.registry.ids, rfl, ?_, fun id => ?_⟩
    · rw [h]
      exact Registry.pairwise_ids_extend log List.Pairwise.nil
    · rw [h, Registry.mem_ids_extend]
      simp [Registry.ids]

/-! ## Building step by step -/

theorem exists_askAll_registers : ∀ (log : List (Text × Sanitizer)) (s : Session), s.configuration.frozen = false →
    ∃ es, ∀ depth, askAll depth (log.map fun e => .register e.1 e.2) s = some (List.replicate log.length .done,
      ⟨{ s.configuration with registry := Registry.extend s.configuration.registry log }, es⟩)
  | [], s, _ => ⟨s.events, fun _ => rfl⟩
  | e :: log, s, h => by
    obtain ⟨es, hes⟩ := exists_askAll_registers log (s.become (s.configuration.register e.1 e.2)
      (.sanitizerRegistered e.1 (s.configuration.has e.1))) h
    refine ⟨es, fun depth => ?_⟩
    rw [List.map_cons, askAll_cons, ask_register_of_open h, Option.bind_some, hes depth]
    rfl

theorem exists_askAll_requests (d : Draft) : ∃ es, ∀ depth, askAll depth d.requests ⟨.empty, []⟩ =
    some (List.replicate d.requests.length .done, ⟨d.build, es⟩) := by
  obtain ⟨log, allowed, freezes⟩ := d
  obtain ⟨es, hes⟩ := exists_askAll_registers log ⟨.empty, []⟩ rfl
  have hlength : ∀ n, List.replicate (log.length + n) Answer.done =
      List.replicate log.length .done ++ List.replicate n .done := fun n => List.replicate_add ..
  cases freezes with
  | false =>
    refine ⟨es ++ [.gateSet allowed], fun depth => ?_⟩
    rw [Draft.requests, askAll_append, hes, List.length_append, List.length_map, hlength]
    rfl
  | true =>
    refine ⟨es ++ [.gateSet allowed] ++ [.frozen (Registry.extend [] log).length allowed], fun depth => ?_⟩
    rw [Draft.requests, askAll_append, hes, List.length_append, List.length_map, hlength]
    rfl

/-- **The last registration counts.**  A configuration that was built is the one that the requests of its draft make, so
that no run can tell them apart; and every request of a run is answered from the log of what it was built from and of
what has been registered since, by sanitizers themselves or between them. -/
theorem last_registration_counts (d : Draft) :
    (∃ noted, ∀ depth rs, askAll depth (d.requests ++ rs) ⟨.empty, []⟩ =
      (askAll depth rs ⟨d.build, []⟩).map fun r =>
        (List.replicate d.requests.length .done ++ r.1, ⟨r.2.configuration, noted ++ r.2.events⟩)) ∧
    ∀ depth rs es earlier a later, history depth rs ⟨d.build, es⟩ = earlier ++ a :: later →
      a.Consults (d.entries ++ registered earlier) := by
  constructor
  · obtain ⟨noted, hnoted⟩ := exists_askAll_requests d
    refine ⟨noted, fun depth rs => ?_⟩
    have hafter := askAll_after noted depth rs ⟨d.build, []⟩
    rw [after, List.append_nil] at hafter
    rw [askAll_append, hnoted, Option.bind_some, hafter, Option.map_map]
    rfl
  · intro depth rs es earlier a later h
    obtain ⟨hfollows, hmeets⟩ := configuration_of_history h
    refine consults ?_
    rw [hmeets, registry_replay hfollows, registry_build, Registry.extend, Registry.extend, Registry.extend,
      List.foldl_append]

/-- A sanitizer that registers another in its own place goes on as it began, and the other one follows it. -/
theorem last_registration_counts_itself :
    let second := Stock.const ['2']
    let first : Sanitizer := fun _ => .ask (.register ['f'] second) fun _ => .done ['1']
    let d : Draft := ⟨[(['f'], first)], false, false⟩
    let rs := [.sanitize (some ['f']) [], .sanitize (some ['f']) []]
    ∃ a b c, history 1 rs ⟨d.build, []⟩ = [a, b, c] ∧
      a.outcome.map (·.1) = some (.markup ⟨['1']⟩) ∧ c.outcome.map (·.1) = some (.markup ⟨['2']⟩) := by
  intro second first d rs
  have h : history 1 rs ⟨d.build, []⟩ = [_, _, _] := rfl
  have hconsults := (last_registration_counts d).2 1 rs []
  refine ⟨_, _, _, h, ?_, ?_⟩
  · rw [(hconsults [] _ [_, _] h).sanitize _ _ rfl first rfl]
    rfl
  · rw [(hconsults [_, _] _ [] h).sanitize _ _ rfl second rfl]
    rfl

end Session
end SafeMarkup
