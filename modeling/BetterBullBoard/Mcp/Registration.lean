import BetterBullBoard.Mcp.Consent

/-! # What registration binds

A client's registered scope and grant types are stored and not consulted again:
the scope of a token is the one a user approved, and a refresh asks for no
registered grant.
-/

namespace BetterBullBoard

def Event.grantType : Event → Option String
  | .exchanged .. => some "authorization_code"
  | .refreshed .. => some "refresh_token"
  | _ => none

/-- The grant type a token row was obtained through. -/
def grantOf (h : List Event) (id : Nat) : Option String :=
  (h.find? fun e => e.issues = some id).bind Event.grantType

theorem grantType_of_issues {e : Event} {id : Nat} (issues : e.issues = some id) :
    e.grantType = some "authorization_code" ∨ e.grantType = some "refresh_token" := by
  cases e with
  | exchanged => exact .inl rfl
  | refreshed => exact .inr rfl
  | approved | accepted | executed => cases issues

theorem issues_of_issued {e : Event} {row : TokenInsert} {accessToken : String}
    (issued : e.issued = some (row, accessToken)) : e.issues = some row.id := by
  cases e with
  | exchanged | refreshed =>
      cases issued
      rfl
  | approved | accepted | executed => cases issued

/-- A row that an event issued has a grant type. -/
theorem grantOf_issued {h : List Event} {e : Event} {row : TokenInsert} {accessToken : String} (event : e ∈ h)
    (issued : e.issued = some (row, accessToken)) :
    grantOf h row.id = some "authorization_code" ∨ grantOf h row.id = some "refresh_token" := by
  unfold grantOf
  cases found : h.find? fun e => e.issues = some row.id with
  | none =>
      have := List.find?_eq_none.mp found e event
      simp [issues_of_issued issued] at this
  | some e' =>
      have issues : e'.issues = some row.id := by simpa using List.find?_some found
      exact grantType_of_issues issues

namespace McpSystem

variable {rt : Runtime}

/-- The scope of every row is contained in the scope its client registered. -/
def ScopeBound (s : McpSystem) : Prop :=
  ∀ t ∈ s.db.tokens, ∃ client ∈ s.db.clients, client.clientId = t.clientId ∧
    ∀ word ∈ JsText.splitSpaces t.scope, word ∈ JsText.splitSpaces client.scope

/-- Every row was obtained through a grant type its client registered. -/
def GrantBound (s : McpSystem) : Prop :=
  ∀ t ∈ s.db.tokens, ∃ client ∈ s.db.clients, client.clientId = t.clientId ∧
    ∃ grant ∈ client.grantTypes, grantOf s.history t.id = some grant

/-- What bounds a row instead. -/
structure BoundByApproval (s : McpSystem) (t : OAuthToken) (client : OAuthClient) (d : Redemption) : Prop where
  registered : client ∈ s.db.clients ∧ client.clientId = t.clientId
  chain : chainStart s.history t.id = some d
  approved : d.code.clientId = t.clientId ∧ ∃ code, .approved d.code.subject code d.code ∈ s.history
  scope : t.scope = d.code.scope ∧ (t.scope = "bbb:read" ∨ t.scope = "bbb:read bbb:write")
  grant : (grantOf s.history t.id = some "authorization_code" ∧ "authorization_code" ∈ client.grantTypes) ∨
    grantOf s.history t.id = some "refresh_token"

theorem tokens_bound_by_approval {ts : List (Machine.Transition McpSystem McpAction)} {s : McpSystem}
    (run : Machine.Run (step rt) init ts s) : ∀ t ∈ s.db.tokens, ∃ client d, BoundByApproval s t client d := by
  intro t ht
  obtain ⟨sound, issued⟩ := run.invariant (I := fun s => Sound rt s ∧ Issued rt s)
    (fun s a s' holds enabled => ⟨sound_step holds.1 enabled, effect_issued holds.2 (step_effect enabled)⟩)
    ⟨sound_init, by intro t ht; cases ht⟩
  obtain ⟨d, granted⟩ := sound.tokens t ht
  obtain ⟨code, approved⟩ := granted.approved
  obtain ⟨client, member, id⟩ := approved.client
  obtain ⟨scope, parsed⟩ := approved.scope
  obtain ⟨e, event, accessToken, issue, -⟩ := issued t ht
  refine ⟨client, d, {
    registered := ⟨member, id.trans granted.clientId.symm⟩
    chain := granted.start
    approved := ⟨granted.clientId.symm, code, approved.event⟩
    scope := ⟨granted.scope, granted.scope ▸ parseScopes_ok parsed⟩
    grant := ?_ }⟩
  cases grantOf_issued event issue with
  | inl exchanged => exact .inl ⟨exchanged, sound.clients client member⟩
  | inr refreshed => exact .inr refreshed

/-! ## A client that registered for reading by code -/

def readerMetadata : JsValue :=
  .object [("redirect_uris", .array [.string "https://client.example/callback"]), ("scope", .string "bbb:read"),
    ("grant_types", .array [.string "authorization_code"])]

/-- It asks for both scopes, and refreshes the token it is given. -/
def overreachingActs : List McpAction :=
  grantedActs readerMetadata ++
    [.token 2 refreshForm, .claimToken 2 3000, .refresh 2 ⟨"access-2", "refresh-2", 2, 3000, 3000⟩]

instance (s : McpSystem) : Decidable (ScopeBound s) :=
  inferInstanceAs (Decidable (∀ t ∈ s.db.tokens, ∃ client ∈ s.db.clients, _ ∧ ∀ word ∈ _, word ∈ _))

instance (s : McpSystem) : Decidable (GrantBound s) :=
  inferInstanceAs (Decidable (∀ t ∈ s.db.tokens, ∃ client ∈ s.db.clients, _ ∧ ∃ grant ∈ client.grantTypes, _ = _))

theorem overreaching_performed : ((Machine.perform (step exampleRuntime) init overreachingActs).any fun r =>
    decide (¬ ScopeBound r.2) && decide (¬ GrantBound r.2)) = true := by
  decide +kernel

theorem registration_not_bound :
    (¬ ∀ rt ts s, Machine.Run (step rt) init ts s → ScopeBound s) ∧
      ¬ ∀ rt ts s, Machine.Run (step rt) init ts s → GrantBound s := by
  obtain ⟨ts, s, run, ended⟩ := Machine.run_of_perform overreaching_performed
  simp only [Bool.and_eq_true, decide_eq_true_eq] at ended
  exact ⟨fun bound => ended.1 (bound exampleRuntime ts s run), fun bound => ended.2 (bound exampleRuntime ts s run)⟩

/-- The run's rows are bounded by the approval. -/
theorem overreaching_bound : ∃ ts s, Machine.Run (step exampleRuntime) init ts s ∧ ¬ ScopeBound s ∧
    ∀ t ∈ s.db.tokens, ∃ client d, BoundByApproval s t client d := by
  obtain ⟨ts, s, run, ended⟩ := Machine.run_of_perform overreaching_performed
  simp only [Bool.and_eq_true, decide_eq_true_eq] at ended
  exact ⟨ts, s, run, ended.1, tokens_bound_by_approval run⟩

end McpSystem

end BetterBullBoard
