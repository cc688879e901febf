import CardQuery.Query.Document

/-!
# Search requests

What is sent to find the cards of a query: its filter together with that of the domain, and the
settings, of which the query's own come before those of the domain.
-/

set_option autoImplicit false

namespace CardQuery

/-- A request for cards. -/
structure SearchRequest where
  filter : Text
  settings : QuerySettings
  deriving DecidableEq, Repr

namespace SearchRequest

/-- Two filters that both have to hold. -/
def conjoin (shared own : Text) : Text :=
  if shared.isEmpty then own
  else if own.isEmpty then shared
  else '(' :: shared ++ [')', ' ', '('] ++ own ++ [')']

/-- The request for a query of a document with this domain. -/
def ofQuery (query : Query) (domain : Option Segment) : SearchRequest :=
  let own := query.body.filter.trim
  match domain with
  | none => ⟨own, query.body.settings⟩
  | some d => ⟨conjoin d.filter.trim own, query.body.settings.inherit d.settings⟩

/-- The parameters of a request by name, the filter first; a setting that is not given has no
parameter. -/
def parameters (r : SearchRequest) : List (String × Text) :=
  ("q", r.filter) :: [SettingKey.order, .dir, .unique].filterMap fun key =>
    (r.settings.get key).map fun value => (key.name, value)

end SearchRequest

/-- The requests for the queries of a document, in order. -/
def QueryDocument.requests (d : QueryDocument) : List SearchRequest :=
  d.queries.map fun q => .ofQuery q d.domain

end CardQuery
