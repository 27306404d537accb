import BetterBullBoard.Mcp.Sound

/-! # No write without consent

Whenever a write tool acts, the bearer token it is called with was issued at the
end of a chain of refreshes that started with a code a user approved for writing.
-/

namespace BetterBullBoard

/-- The row an event issues, with its access token. -/
def Event.issued : Event → Option (TokenInsert × String)
  | .exchanged _ accessToken row => some (row, accessToken)
  | .refreshed _ _ accessToken row => some (row, accessToken)
  | _ => none

namespace McpSystem

variable (rt : Runtime) {s s' : McpSystem}

/-- Every row was issued with an access token that hashes to its hash. -/
def Issued (s : McpSystem) : Prop :=
  ∀ t ∈ s.db.tokens, ∃ e ∈ s.history, ∃ accessToken,
    e.issued = some (t.toTokenInsert, accessToken) ∧ t.accessTokenHash = rt.hashToken accessToken

variable {rt}

theorem effect_issued (issued : Issued rt s) (effect : Effect rt s s') : Issued rt s' := by
  have grows := effect_grows effect
  have before : ∀ row : TokenInsert, (∃ t ∈ s.db.tokens, t.toTokenInsert = row) → ∃ e ∈ s'.history, ∃ accessToken,
      e.issued = some (row, accessToken) ∧ row.accessTokenHash = rt.hashToken accessToken := by
    intro row stored
    obtain ⟨t, ht, rfl⟩ := stored
    obtain ⟨e, event, issue⟩ := issued t ht
    exact ⟨e, grows.history event, issue⟩
  intro t ht
  cases effect with
  | idle | moves | claimsCode | claimsToken | rollsBack | accepts | executes => exact before _ ⟨t, ht, rfl⟩
  | registers client db inserted => exact before _ ⟨t, (McpDb.insertClient_some inserted).2.2 ▸ ht, rfl⟩
  | approves _ _ _ _ _ _ _ inserted => exact before _ ⟨t, (McpDb.insertCode_some inserted).2.2.2 ▸ ht, rfl⟩
  | marks r q set wher =>
      obtain ⟨t', member, rfl⟩ := List.mem_map.mp ht
      exact before _ ⟨t', member, (McpDb.updateToken_insert _ _ _).symm⟩
  | exchanges r d usedAt drawn row db _ _ new inserted =>
      simp only [record_db, set_db, release_db, (McpDb.insertToken_some inserted).2.2.2, List.mem_append,
        List.mem_singleton] at ht
      cases ht with
      | inl old => exact before _ ⟨t, old, rfl⟩
      | inr same =>
          subst same new
          exact ⟨_, List.mem_cons_self, drawn.accessToken, rfl, rfl⟩
  | refreshes r x old now drawn row db _ new inserted =>
      simp only [record_db, set_db, release_db] at ht
      obtain ⟨t', member, rfl⟩ := List.mem_map.mp ht
      rw [McpDb.updateToken_insert]
      rw [(McpDb.insertToken_updated inserted).2.2.2, List.mem_append, List.mem_singleton] at member
      cases member with
      | inl stored =>
          obtain ⟨t'', member, rfl⟩ := List.mem_map.mp stored
          exact before _ ⟨t'', member, (McpDb.updateToken_insert _ _ _).symm⟩
      | inr same =>
          subst same new
          exact ⟨_, List.mem_cons_self, drawn.accessToken, rfl, rfl⟩

variable (rt)

/-- What a request's verified token rests on: its row as it was looked up, and the
    redemption its chain of refreshes started with. -/
structure WriteConsent (s : McpSystem) (bearer : String) (row : OAuthToken) (now : Int) (d : Redemption)
    (code : String) : Prop where
  stored : ∃ t ∈ s.db.tokens, t.toTokenInsert = row.toTokenInsert
  hash : row.accessTokenHash = rt.hashToken bearer
  issued : Function.Injective rt.hashToken → ∃ e ∈ s.history, e.issued = some (row.toTokenInsert, bearer)
  unrevoked : row.revokedAt = none
  unexpired : now < row.accessTokenExpiresAt
  chain : chainStart s.history row.id = some d
  approved : .approved d.code.subject code d.code ∈ s.history
  write : MCP_WRITE_SCOPE ∈ JsText.splitSpaces d.code.scope
  clientId : row.clientId = d.code.clientId
  subject : row.subject = d.code.subject
  scope : row.scope = d.code.scope
  resource : row.resource = d.code.resource
  codeHash : d.code.codeHash = rt.hashToken code ∧ d.code.codeHash = rt.hashToken d.exchange.code
  client : d.exchange.clientId = d.code.clientId
  redirectUri : d.exchange.redirectUri = d.code.redirectUri
  expiry : d.now < d.code.expiresAt
  verifier : verifyPkce rt d.exchange.codeVerifier d.code.codeChallenge d.code.codeChallengeMethod = true

variable {rt}

theorem executes_scopes {r : Nat} {action : McpTool} (effect : Effect rt s s')
    (executed : s'.history = .executed r action :: s.history) (write : action ∈ writeTools) :
    ∃ scopes, s.requests r = some (.serving scopes) ∧ MCP_WRITE_SCOPE ∈ scopes := by
  have longer : s.history ≠ .executed r action :: s.history := fun same => by simpa using congrArg List.length same
  cases effect with
  | idle | moves | registers | claimsCode | claimsToken | rollsBack | marks => exact absurd executed longer
  | approves | exchanges | refreshes | accepts => cases (List.cons.inj executed).1
  | executes r' scopes action' stands writes =>
      cases (List.cons.inj executed).1
      exact ⟨scopes, stands, writes write⟩

theorem no_write_without_consent {ts : List (Machine.Transition McpSystem McpAction)} {s : McpSystem}
    (run : Machine.Run (step rt) init ts s) :
    ∀ x ∈ ts, ∀ r, ∀ tool ∈ writeTools, x.post.history = .executed r tool :: x.pre.history →
      ∃ bearer row resource now d code, .accepted r bearer row resource now ∈ x.pre.history ∧
        WriteConsent rt x.pre bearer row now d code := by
  intro x hx r tool write executed
  obtain ⟨⟨sound, issued⟩, enabled⟩ := run.invariant_pre (I := fun s => Sound rt s ∧ Issued rt s)
    (fun s a s' holds enabled => ⟨sound_step holds.1 enabled, effect_issued holds.2 (step_effect enabled)⟩)
    ⟨sound_init, by intro t ht; cases ht⟩ x hx
  obtain ⟨scopes, serving, writes⟩ := executes_scopes (step_effect enabled) executed write
  obtain ⟨row, bearer, resource, now, event, rfl⟩ := sound.requests r _ serving
  have ok := sound.accepted r bearer row resource now event
  obtain ⟨t, member, same⟩ := ok.member
  obtain ⟨d, granted⟩ := sound.tokens t member
  rw [same] at granted
  obtain ⟨code, approved⟩ := granted.approved
  have fit := ok.fit
  simp only [BetterBullBoard.accepts, Bool.and_eq_true, decide_eq_true_eq] at fit
  refine ⟨bearer, row, resource, now, d, code, event, {
    stored := ⟨t, member, same⟩
    hash := ok.hash
    issued := ?_
    unrevoked := ok.live
    unexpired := fit.1.1
    chain := granted.start
    approved := approved.event
    write := granted.scope ▸ writes
    clientId := granted.clientId
    subject := granted.subject
    scope := granted.scope
    resource := granted.resource
    codeHash := ⟨approved.hash, granted.matched.hash⟩
    client := granted.matched.clientId.symm
    redirectUri := granted.matched.redirectUri.symm
    expiry := granted.matched.expiry
    verifier := check_ok granted.checked }⟩
  intro injective
  obtain ⟨e, issue, accessToken, names, hash⟩ := issued t member
  rw [same] at names
  have hashes : rt.hashToken accessToken = rt.hashToken bearer := by
    rw [← hash, ← ok.hash]
    exact congrArg TokenInsert.accessTokenHash same
  exact ⟨e, issue, injective hashes ▸ names⟩

/-! ## A client that pauses a queue -/

/-- The runtime on the texts of the run below. -/
def exampleRuntime : Runtime where
  hashToken text :=
    if text = "code-1" then "51bd6639fed7c0b4826af6c06bfe4f4cce3aa7a8db3653978cd4d88ad0a18a8a"
    else if text = "access-1" then "f4c2844f463b5a93a517de81b67a09c8b9d79697bd3e7e5145e20e1ca2013c06"
    else if text = "refresh-1" then "bd473e5dcdce2510c2df4f0c5a54a605fa3647fe74afae20a8cdb8b91b1a1f63"
    else if text = "access-2" then "6762f65455db85eb39ce6ed04355d710bd03b5d0316aef92dc0846cd5dd72b56"
    else if text = "refresh-2" then "f865a88f563b9fbc4c224f6fbabd2ec9f810efefc61b212bda20ee64a6fb2840"
    else ""
  sha256Base64url _ := ""
  parseUrl text base :=
    if text = "https://client.example/callback" then
      some { origin := "https://client.example", protocol := "https:", hash := "", href := text, searchParams := [] }
    else
      base.map fun origin => {
        origin
        protocol := "https:"
        hash := ""
        href := origin ++ text
        searchParams := [("response_type", "code"), ("client_id", "client-1"),
          ("redirect_uri", "https://client.example/callback"), ("code_challenge", "verifier-1"),
          ("scope", "bbb:read bbb:write")] }

def exampleRequest : HttpRequest := { urlOrigin := "http://localhost:3000", host := some "bbb.example" }

def authorizeForm : FormData :=
  [("authorize_url", .text ("/api/mcp/oauth/authorize?response_type=code&client_id=client-1&redirect_uri=" ++
    "https%3A%2F%2Fclient.example%2Fcallback&code_challenge=verifier-1&scope=bbb%3Aread+bbb%3Awrite")),
    ("decision", .text "approve")]

def codeForm : FormData :=
  [("grant_type", .text "authorization_code"), ("client_id", .text "client-1"), ("code", .text "code-1"),
    ("redirect_uri", .text "https://client.example/callback"), ("code_verifier", .text "verifier-1")]

def refreshForm : FormData :=
  [("grant_type", .text "refresh_token"), ("client_id", .text "client-1"), ("refresh_token", .text "refresh-1")]

/-- A client registers with this metadata, is approved and redeems its code. -/
def grantedActs (metadata : JsValue) : List McpAction :=
  [.register metadata "client-1" "", .approve 0 (some "admin@bbb.example") exampleRequest authorizeForm,
    .createCode 0 "code-1" 0, .token 1 codeForm, .claimCode 1 1000 1000,
    .exchange 1 ⟨"access-1", "refresh-1", 1, 1000, 1000⟩]

def pausingActs : List McpAction :=
  grantedActs (.object [("redirect_uris", .array [.string "https://client.example/callback"]),
      ("scope", .string "bbb:read bbb:write")]) ++
    [.mcp 2 { exampleRequest with authorization := some "Bearer access-1" } 2000, .touch 2 2000,
      .callTool 2 .pauseQueue]

theorem pausing_performed : ((Machine.perform (step exampleRuntime) init pausingActs).any fun r =>
    r.1.any fun x => decide (x.post.history = .executed 2 .pauseQueue :: x.pre.history)) = true := by
  decide +kernel

theorem pausing_consented : ∃ ts s, Machine.Run (step exampleRuntime) init ts s ∧ ∃ x ∈ ts,
    x.post.history = .executed 2 .pauseQueue :: x.pre.history ∧
      ∃ bearer row resource now d code, .accepted 2 bearer row resource now ∈ x.pre.history ∧
        WriteConsent exampleRuntime x.pre bearer row now d code := by
  obtain ⟨ts, s, run, executed⟩ := Machine.run_of_perform pausing_performed
  obtain ⟨x, hx, pauses⟩ := List.any_eq_true.mp executed
  have pauses := of_decide_eq_true pauses
  exact ⟨ts, s, run, x, hx, pauses, no_write_without_consent run x hx 2 .pauseQueue (by decide) pauses⟩

end McpSystem

end BetterBullBoard
