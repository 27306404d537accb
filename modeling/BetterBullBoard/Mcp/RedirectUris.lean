import BetterBullBoard.Mcp.Consent

/-! # Redirect URIs, registered and requested

Registration stores what a URI reads after parsing, its serialization. An
authorization request is compared with the stored texts as it was sent.
-/

namespace BetterBullBoard

variable {rt : Runtime}

theorem validateRedirectUri_ok {u href : String} (ok : validateRedirectUri rt u = .ok href) :
    ∃ url, rt.parseUrl u none = some url ∧ url.href = href := by
  unfold validateRedirectUri at ok
  split at ok
  · cases ok
  · rename_i url parsed
    dsimp only at ok
    split at ok
    · cases ok
    · split at ok
      · cases ok
      · cases ok
        exact ⟨url, parsed, rfl⟩

/-- The texts a client lists as its redirect URIs. -/
def sentRedirectUris (metadata : JsValue) : List String := (metadata.get "redirect_uris").strings []

/-- Some listed URI is serialized so. -/
def Serialized (rt : Runtime) (metadata : JsValue) (u : String) : Prop :=
  ∃ sent ∈ sentRedirectUris metadata, sent ≠ "" ∧ ∃ url, rt.parseUrl sent none = some url ∧ url.href = u

/-- A traversal that succeeds has a result for each element, and no other. -/
theorem mapM_ok {α β ε : Type} {f : α → Except ε β} {xs : List α} {ys : List β} (ok : xs.mapM f = .ok ys) :
    (∀ x ∈ xs, ∃ y ∈ ys, f x = .ok y) ∧ ∀ y ∈ ys, ∃ x ∈ xs, f x = .ok y := by
  induction xs generalizing ys with
  | nil =>
      cases ok
      simp
  | cons x xs ih =>
      rw [List.mapM_cons] at ok
      cases first : f x with
      | error e => simp [first, bind, Except.bind] at ok
      | ok y =>
          cases rest : xs.mapM f with
          | error e => simp [first, rest, bind, Except.bind] at ok
          | ok ys' =>
              simp only [first, rest, bind, Except.bind, pure, Except.pure, Except.ok.injEq] at ok
              subst ok
              obtain ⟨forth, back⟩ := ih rest
              constructor
              · refine List.forall_mem_cons.mpr ⟨⟨y, List.mem_cons_self, first⟩, fun x' hx' => ?_⟩
                obtain ⟨y', hy', same⟩ := forth x' hx'
                exact ⟨y', List.mem_cons_of_mem _ hy', same⟩
              · refine List.forall_mem_cons.mpr ⟨⟨x, List.mem_cons_self, first⟩, fun y' hy' => ?_⟩
                obtain ⟨x', hx', same⟩ := back y' hy'
                exact ⟨x', List.mem_cons_of_mem _ hx', same⟩

/-- Registration stores the serializations. -/
theorem registration_redirectUris {metadata : JsValue} {r : Registration}
    (normal : normalizeClientRegistration rt metadata = .ok r) (u : String) :
    u ∈ r.redirectUris ↔ Serialized rt metadata u := by
  obtain ⟨forth, back⟩ := mapM_ok (normalizeClientRegistration_ok normal).1
  simp only [List.mem_filter, bne_iff_ne, ne_eq, and_imp] at forth back
  constructor
  · intro stored
    obtain ⟨sent, ⟨listed, nonempty⟩, validated⟩ := back u stored
    exact ⟨sent, listed, nonempty, validateRedirectUri_ok validated⟩
  · rintro ⟨sent, listed, nonempty, url, parsed, rfl⟩
    obtain ⟨href, stored, validated⟩ := forth sent listed nonempty
    obtain ⟨url', parsed', rfl⟩ := validateRedirectUri_ok validated
    obtain rfl := Option.some.inj (parsed'.symm.trans parsed)
    exact stored

/-- A request that is valid but for its redirect URI. -/
structure OtherwiseValid (db : McpDb) (url : Url) (expected : Option String) (client : OAuthClient) (u : String) :
    Prop where
  scope : ∃ scope, parseScopes (url.get "scope") = .ok scope
  responseType : url.get "response_type" = some "code"
  clientId : nonEmpty (url.get "client_id") = some client.clientId
  client : db.selectClient client.clientId = some client
  redirectUri : url.get "redirect_uri" = some u
  codeChallenge : ∃ codeChallenge, nonEmpty (url.get "code_challenge") = some codeChallenge
  codeChallengeMethod : (url.get "code_challenge_method").getD "plain" = "S256" ∨
    (url.get "code_challenge_method").getD "plain" = "plain"
  resource : (url.get "resource").getD (getMcpResource url.origin) = expected.getD (getMcpResource url.origin)

theorem authorization_redirectUri {db : McpDb} {url : Url} {expected : Option String}
    {client : OAuthClient} {u : String}
    (valid : OtherwiseValid db url expected client u) :
    (∃ a, validateAuthorizationRequest db url expected = .ok a) ↔ u ≠ "" ∧ u ∈ client.redirectUris := by
  obtain ⟨scope, parsed⟩ := valid.scope
  obtain ⟨codeChallenge, challenged⟩ := valid.codeChallenge
  have method : ¬ ((url.get "code_challenge_method").getD "plain" ≠ "S256" ∧
      (url.get "code_challenge_method").getD "plain" ≠ "plain") := by
    rintro ⟨notS256, notPlain⟩
    exact valid.codeChallengeMethod.elim notS256 notPlain
  by_cases empty : u = ""
  · have missing : nonEmpty (url.get "redirect_uri") = none := by rw [valid.redirectUri, empty]; rfl
    simp [validateAuthorizationRequest, parsed, valid.responseType, valid.clientId, missing, empty]
  · have given : nonEmpty (url.get "redirect_uri") = some u := by simp [nonEmpty, valid.redirectUri, empty]
    simp only [validateAuthorizationRequest, parsed, valid.responseType, valid.clientId, given, challenged, method,
      valid.resource, valid.client]
    by_cases registered : u ∈ client.redirectUris
    · simp [registered, empty]
    · simp [registered]

/-- A redirect URI is let through exactly when it is the serialization of one the
    client listed. -/
theorem redirectUri_passes_iff {metadata : JsValue} {r : Registration} {clientId clientSecret u : String} {db : McpDb}
    {url : Url} {expected : Option String} (normal : normalizeClientRegistration rt metadata = .ok r)
    (valid : OtherwiseValid db url expected (r.client rt clientId clientSecret) u) :
    (∃ a, validateAuthorizationRequest db url expected = .ok a) ↔ u ≠ "" ∧ Serialized rt metadata u := by
  rw [authorization_redirectUri valid, ← registration_redirectUris normal]
  rfl

/-! ## An origin without a path -/

/-- The parser on the texts below: an empty path reads `/`. -/
def pathRuntime : Runtime where
  hashToken _ := ""
  sha256Base64url _ := ""
  parseUrl text _ :=
    if text = "https://app.example.com" ∨ text = "https://app.example.com/" then
      some {
        origin := "https://app.example.com", protocol := "https:", hash := "", href := "https://app.example.com/"
        searchParams := [] }
    else none

def originMetadata (u : String) : JsValue := .object [("redirect_uris", .array [.string u])]

deriving instance DecidableEq for Registration

def originRegistration : Registration where
  clientName := "MCP Client"
  redirectUris := ["https://app.example.com/"]
  grantTypes := ["authorization_code", "refresh_token"]
  responseTypes := ["code"]
  tokenEndpointAuthMethod := "none"
  scope := "bbb:read"

def originClient : OAuthClient := originRegistration.client pathRuntime "client-1" ""

def originDb : McpDb := { McpDb.empty with clients := [originClient], clientIds := List.nodup_singleton _ }

def originRequest (u : String) : Url where
  origin := "https://bbb.example"
  protocol := "https:"
  hash := ""
  href := ""
  searchParams := [("response_type", "code"), ("client_id", "client-1"), ("redirect_uri", u),
    ("code_challenge", "verifier-1")]

theorem originRequest_valid (u : String) : OtherwiseValid originDb (originRequest u) none originClient u where
  scope := ⟨"bbb:read", show parseScopes none = .ok "bbb:read" by decide +kernel⟩
  responseType := rfl
  clientId := rfl
  client := rfl
  redirectUri := rfl
  codeChallenge := ⟨"verifier-1", rfl⟩
  codeChallengeMethod := .inr rfl
  resource := rfl

/-- With its path written out, the origin is let through. -/
theorem slash_passes : ∃ a, validateAuthorizationRequest originDb (originRequest "https://app.example.com/") none =
    .ok a := by
  have normal : normalizeClientRegistration pathRuntime (originMetadata "https://app.example.com/") =
      .ok originRegistration := by decide +kernel
  exact (redirectUri_passes_iff normal (originRequest_valid _)).mpr
    ⟨by decide, _, List.mem_singleton_self _, by decide, _, rfl, rfl⟩

/-- As it was listed, it is refused. -/
theorem listed_origin_refused :
    ¬ ∀ (rt : Runtime) (metadata : JsValue) (r : Registration) (clientId clientSecret u : String) (db : McpDb)
      (url : Url)
      (expected : Option String), normalizeClientRegistration rt metadata = .ok r → u ∈ sentRedirectUris metadata →
      OtherwiseValid db url expected (r.client rt clientId clientSecret) u →
      ∃ a, validateAuthorizationRequest db url expected = .ok a := by
  intro all
  have passes := all pathRuntime (originMetadata "https://app.example.com") originRegistration "client-1" ""
    "https://app.example.com" originDb (originRequest "https://app.example.com") none (by decide +kernel)
    (List.mem_singleton_self _) (originRequest_valid _)
  obtain ⟨-, stored⟩ := (authorization_redirectUri (originRequest_valid "https://app.example.com")).mp passes
  revert stored
  decide

end BetterBullBoard
