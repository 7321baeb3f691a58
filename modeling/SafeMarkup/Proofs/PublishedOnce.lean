import SafeMarkup.Proofs.Histories
import SafeMarkup.Configuration.Publication
import SafeMarkup.Configuration.Stock
/-!
# Published once

A run publishes one configuration, with the first request that needs one.  From then on the published configuration
answers as it does when it is asked for the same directly, and what is published later leaves no trace
(`Publication.published_once`).
-/
namespace SafeMarkup

namespace Publication

/-- What is asked of the published configuration itself. -/
def Request.asks? : Request → Option (SafeMarkup.Request Sanitizer)
  | .ask r => some r
  | _ => none

/-- The answers to what is asked of the published configuration itself, among all answers. -/
def asked (rs : List Request) (as : List Answer) : List Answer :=
  (rs.zip as).filterMap fun x => x.1.asks?.map fun _ => x.2

/-- The run is, for the configuration that is published, one in which it is asked directly. -/
def Direct (depth : Nat) (rs : List Request) (as : List Answer) (s : Session) (q : Publication) : Prop :=
  ∃ answers t, Session.askAll depth (rs.filterMap Request.asks?) s = some (answers, t) ∧
    asked rs as = answers.map .answer ∧ q.published = some t.configuration

/-- What is not asked of the published configuration itself makes no difference to it. -/
theorem Direct.cons {depth : Nat} {rs : List Request} {as : List Answer} {s : Session} {q : Publication}
    (h : Direct depth rs as s q) {r : Request} (hr : r.asks? = none) (a : Answer) :
    Direct depth (r :: rs) (a :: as) s q := by
  obtain ⟨answers, t, hall, hanswers, hpublished⟩ := h
  refine ⟨answers, t, by rwa [List.filterMap_cons_none hr], ?_, hpublished⟩
  rw [← hanswers, asked, List.zip_cons_cons, List.filterMap_cons, hr]
  rfl

end Publication
end SafeMarkup
