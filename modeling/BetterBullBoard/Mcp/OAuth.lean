import BetterBullBoard.Lib.JsText
import BetterBullBoard.Queues.ChangedKeys
import BetterBullBoard.Mcp.Schema

/-! # Requests of the MCP authorization server

What the endpoints read from a request and check before they write. Hashing and
URL parsing are taken from the runtime.
-/

namespace BetterBullBoard

/-- The parts of a URL the server reads. -/
structure Url where
  origin : String
  protocol : String
  hash : String
  href : String
  searchParams : List (String × String)

namespace Url

/-- `url.searchParams.get(key)` -/
def get (url : Url) (key : String) : Option String :=
  (url.searchParams.find? fun p => p.1 = key).map (·.2)

end Url

structure Runtime where
  /-- The hex digest of SHA-256. -/
  hashToken : String → String
  /-- The base64url digest of SHA-256. -/
  sha256Base64url : String → String
  /-- `new URL(text, base)` -/
  parseUrl : String → Option String → Option Url

structure OAuthError where
  code : String
  message : String
  status : Nat := 400
  deriving DecidableEq

/-! ## Scopes -/

def MCP_READ_SCOPE : String := "bbb:read"

def MCP_WRITE_SCOPE : String := "bbb:write"

def MCP_SUPPORTED_SCOPES : List String := [MCP_READ_SCOPE, MCP_WRITE_SCOPE]

def parseScopes (scope : Option String) : Except OAuthError String :=
  let requestedScopes := ((JsText.splitSpaces (scope.getD MCP_READ_SCOPE)).filter (· != "")).eraseDups
  let unsupportedScopes := requestedScopes.filter fun s => !MCP_SUPPORTED_SCOPES.contains s
  if unsupportedScopes.length > 0 then
    .error { code := "invalid_scope", message := "Unsupported scope: " ++ " ".intercalate unsupportedScopes }
  else if !requestedScopes.contains MCP_READ_SCOPE then
    .error { code := "invalid_scope", message := "bbb:read is required" }
  else .ok (" ".intercalate (MCP_SUPPORTED_SCOPES.filter requestedScopes.contains))

theorem parseScopes_ok {scope : Option String} {granted : String} (parsed : parseScopes scope = .ok granted) :
    granted = "bbb:read" ∨ granted = "bbb:read bbb:write" := by
  unfold parseScopes at parsed
  dsimp only at parsed
  split at parsed
  · cases parsed
  · split at parsed
    · cases parsed
    · rename_i read
      simp only [Bool.not_eq_true, Bool.not_eq_false'] at read
      cases parsed
      simp only [MCP_SUPPORTED_SCOPES, List.filter_cons, read, if_true, List.filter_nil]
      split
      · exact .inr (by decide)
      · exact .inl (by decide)

/-! ## Headers -/

structure HttpRequest where
  /-- `new URL(request.url).origin` -/
  urlOrigin : String
  xForwardedHost : Option String := none
  host : Option String := none
  xForwardedProto : Option String := none
  authorization : Option String := none

def firstHeaderValue (value : Option String) : Option String :=
  (value.map fun v => JsText.trim (JsText.upTo ',' v)).filter (· != "")

def inferProtocol (host : String) : String :=
  if JsText.startsWith "localhost" host || JsText.startsWith "127.0.0.1" host then "http" else "https"

def isHttpProtocol (protocol : String) : Bool := protocol = "http" || protocol = "https"

def getOrigin (request : HttpRequest) : String :=
  match (firstHeaderValue request.xForwardedHost).or (firstHeaderValue request.host) with
  | none => request.urlOrigin
  | some host =>
      let protocol := ((firstHeaderValue request.xForwardedProto).filter isHttpProtocol).getD (inferProtocol host)
      protocol ++ "://" ++ host

def getMcpResource (origin : String) : String := origin ++ "/mcp"

def getBearerToken (request : HttpRequest) : Option String :=
  (request.authorization.filter (JsText.startsWith "Bearer ")).map (JsText.slice "Bearer ".length)

/-! ## Forms -/

inductive FormValue where
  | text (s : String)
  | file
  deriving DecidableEq

abbrev FormData := List (String × FormValue)

namespace FormData

def get (form : FormData) (key : String) : Option FormValue :=
  (form.find? fun p => p.1 = key).map (·.2)

/-- `formData.get(key)?.toString()` -/
def getText (form : FormData) (key : String) : Option String :=
  (get form key).map fun
    | .text s => s
    | .file => "[object File]"

end FormData

def requireString (form : FormData) (key : String) : Except OAuthError String :=
  match FormData.get form key with
  | some (.text value) =>
      if value = "" then .error { code := "invalid_request", message := key ++ " is required" } else .ok value
  | _ => .error { code := "invalid_request", message := key ++ " is required" }

/-! ## Registration -/

def isSchemeChar (c : Char) : Bool :=
  ('a' ≤ c && c ≤ 'z') || ('0' ≤ c && c ≤ '9') || c = '+' || c = '.' || c = '-'

/-- `/^[a-z][a-z0-9+.-]*:$/` -/
def isSchemeName (scheme : String) : Bool :=
  match scheme.toList with
  | [] => false
  | first :: rest => ('a' ≤ first && first ≤ 'z') && rest.getLast? = some ':' && rest.dropLast.all isSchemeChar

def blockedSchemes : List String := ["data:", "file:", "javascript:", "vbscript:"]

def validateRedirectUri (rt : Runtime) (redirectUri : String) : Except OAuthError String :=
  match rt.parseUrl redirectUri none with
  | none => .error { code := "invalid_client_metadata", message := "redirect_uris must contain absolute URIs" }
  | some url =>
      let scheme := url.protocol.toLower
      let isAllowedScheme := scheme = "http:" || scheme = "https:" || isSchemeName scheme
      if url.hash ≠ "" then
        .error { code := "invalid_client_metadata", message := "redirect_uris must not contain fragments" }
      else if !isAllowedScheme || blockedSchemes.contains scheme then
        .error { code := "invalid_client_metadata", message := "redirect_uris use an unsupported scheme" }
      else .ok url.href

/-- The strings of an array, or a default for what is no array. -/
def JsValue.strings (default : List String) : JsValue → List String
  | .array items => items.filterMap fun
      | .string s => some s
      | _ => none
  | _ => default

def JsValue.text? : JsValue → Option String
  | .string s => some s
  | _ => none

/-- The metadata `normalizeClientRegistration` stores for a client, which is given
    its id and secret afterwards. -/
structure Registration where
  clientName : String
  redirectUris : List String
  grantTypes : List String
  responseTypes : List String
  tokenEndpointAuthMethod : String
  scope : String

def normalizeClientRegistration (rt : Runtime) (metadata : JsValue) : Except OAuthError Registration := do
  let redirectUris ← (((metadata.get "redirect_uris").strings []).filter (· != "")).mapM (validateRedirectUri rt)
  let grantTypes := (metadata.get "grant_types").strings ["authorization_code", "refresh_token"]
  let responseTypes := (metadata.get "response_types").strings ["code"]
  let tokenEndpointAuthMethod := (metadata.get "token_endpoint_auth_method").text?.getD "none"
  let clientName := ((metadata.get "client_name").text?.filter (· != "")).getD "MCP Client"
  if redirectUris.length = 0 then
    .error { code := "invalid_client_metadata", message := "redirect_uris is required" }
  else
    let scope ← parseScopes (metadata.get "scope").text?
    if !grantTypes.contains "authorization_code" then
      .error { code := "invalid_client_metadata", message := "authorization_code grant is required" }
    else if !responseTypes.contains "code" then
      .error { code := "invalid_client_metadata", message := "code response type is required" }
    else if tokenEndpointAuthMethod ≠ "none" ∧ tokenEndpointAuthMethod ≠ "client_secret_post" then
      .error { code := "invalid_client_metadata", message := "Unsupported token_endpoint_auth_method" }
    else .ok { clientName, redirectUris, grantTypes, responseTypes, tokenEndpointAuthMethod, scope }

/-- The row of a registered client. -/
def Registration.client (rt : Runtime) (r : Registration) (clientId clientSecret : String) : OAuthClient where
  clientId := clientId
  clientSecretHash :=
    if r.tokenEndpointAuthMethod = "client_secret_post" then some (rt.hashToken clientSecret) else none
  clientName := r.clientName
  redirectUris := r.redirectUris
  grantTypes := r.grantTypes
  responseTypes := r.responseTypes
  tokenEndpointAuthMethod := r.tokenEndpointAuthMethod
  scope := r.scope

/-- What a registration that is accepted was made from. -/
theorem normalizeClientRegistration_ok {rt : Runtime} {metadata : JsValue} {r : Registration}
    (normal : normalizeClientRegistration rt metadata = .ok r) :
    (((metadata.get "redirect_uris").strings []).filter (· != "")).mapM (validateRedirectUri rt) =
        .ok r.redirectUris ∧
      "authorization_code" ∈ r.grantTypes := by
  simp only [normalizeClientRegistration, bind, Except.bind] at normal
  split at normal
  · cases normal
  · rename_i uris validated
    split at normal
    · cases normal
    · split at normal
      · cases normal
      · split at normal
        · cases normal
        · rename_i listed
          split at normal
          · cases normal
          · split at normal
            · cases normal
            · cases normal
              exact ⟨validated, by simpa using listed⟩

/-- Registration asks for the grant that starts every chain of tokens. -/
theorem registration_grants {rt : Runtime} {metadata : JsValue} {r : Registration}
    (normal : normalizeClientRegistration rt metadata = .ok r) : "authorization_code" ∈ r.grantTypes :=
  (normalizeClientRegistration_ok normal).2

/-! ## Authorization -/

structure Authorization where
  client : OAuthClient
  redirectUri : String
  scope : String
  state : Option String
  codeChallenge : String
  codeChallengeMethod : String
  resource : String

def nonEmpty (value : Option String) : Option String := value.filter (· != "")

def validateAuthorizationRequest (db : McpDb) (url : Url) (expected : Option String) :
    Except OAuthError Authorization :=
  let codeChallengeMethod := (url.get "code_challenge_method").getD "plain"
  let resource := (url.get "resource").getD (getMcpResource url.origin)
  let expectedResource := expected.getD (getMcpResource url.origin)
  match parseScopes (url.get "scope") with
  | .error e => .error e
  | .ok scope =>
      if url.get "response_type" ≠ some "code" then
        .error { code := "unsupported_response_type", message := "Only authorization code flow is supported" }
      else
        match nonEmpty (url.get "client_id"), nonEmpty (url.get "redirect_uri"),
          nonEmpty (url.get "code_challenge") with
        | some clientId, some redirectUri, some codeChallenge =>
            if codeChallengeMethod ≠ "S256" ∧ codeChallengeMethod ≠ "plain" then
              .error { code := "invalid_request", message := "Only S256 and plain PKCE methods are supported" }
            else if resource ≠ expectedResource then
              .error {
                code := "invalid_target"
                message :=
                  "This authorization server only issues tokens for the Better Bull Board MCP resource" }
            else
              match db.selectClient clientId with
              | none => .error { code := "invalid_client", message := "Unknown OAuth client" }
              | some client =>
                  if !client.redirectUris.contains redirectUri then
                    .error {
                      code := "invalid_request"
                      message := "redirect_uri is not registered for this client" }
                  else .ok {
                    client, redirectUri, scope, state := url.get "state", codeChallenge, codeChallengeMethod, resource }
        | _, _, _ =>
            .error {
              code := "invalid_request"
              message := "client_id, redirect_uri, and code_challenge are required" }

/-- What an accepted authorization request is held to. -/
theorem authorization_ok {db : McpDb} {url : Url} {expected : Option String} {a : Authorization}
    (valid : validateAuthorizationRequest db url expected = .ok a) :
    a.client ∈ db.clients ∧ a.redirectUri ∈ a.client.redirectUris ∧ parseScopes (url.get "scope") = .ok a.scope ∧
      a.resource = expected.getD (getMcpResource url.origin) := by
  unfold validateAuthorizationRequest at valid
  dsimp only at valid
  split at valid
  · cases valid
  rename_i scopes
  split at valid
  · cases valid
  split at valid
  · split at valid
    · cases valid
    split at valid
    · cases valid
    rename_i target
    split at valid
    · cases valid
    rename_i found
    split at valid
    · cases valid
    · rename_i registered
      cases valid
      exact ⟨List.mem_of_find?_eq_some found, by simpa using registered, scopes, not_not.mp target⟩
  · cases valid

def MCP_AUTHORIZATION_CODE_TTL_SECONDS : Int := 60 * 10

/-- The row `createAuthorizationCode` inserts. -/
def createAuthorizationCode (rt : Runtime) (a : Authorization) (subject code : String) (now : Int) : CodeInsert where
  codeHash := rt.hashToken code
  clientId := a.client.clientId
  redirectUri := a.redirectUri
  scope := a.scope
  codeChallenge := a.codeChallenge
  codeChallengeMethod := a.codeChallengeMethod
  resource := a.resource
  subject := subject
  expiresAt := now + MCP_AUTHORIZATION_CODE_TTL_SECONDS * 1000

/-! ## Tokens -/

def validateClientSecret (rt : Runtime) (client : OAuthClient) (clientSecret : Option String) :
    Except OAuthError Unit :=
  if client.tokenEndpointAuthMethod = "none" then .ok ()
  else
    match client.clientSecretHash, nonEmpty clientSecret with
    | some hash, some secret =>
        if hash = "" ∨ rt.hashToken secret ≠ hash then
          .error { code := "invalid_client", message := "Invalid client credentials", status := 401 }
        else .ok ()
    | _, _ => .error { code := "invalid_client", message := "Invalid client credentials", status := 401 }

def getAuthenticatedClient (rt : Runtime) (db : McpDb) (form : FormData) : Except OAuthError String := do
  let clientId ← requireString form "client_id"
  match db.selectClient clientId with
  | none => .error { code := "invalid_client", message := "Unknown OAuth client", status := 401 }
  | some client =>
      validateClientSecret rt client (FormData.getText form "client_secret")
      return clientId

def verifyPkce (rt : Runtime) (codeVerifier codeChallenge method : String) : Bool :=
  (if method = "S256" then rt.sha256Base64url codeVerifier else codeVerifier) = codeChallenge

/-- What an exchange of a code presents. -/
structure Exchange where
  clientId : String
  code : String
  redirectUri : String
  codeVerifier : String
  resource : Option String
  deriving DecidableEq

def readExchange (rt : Runtime) (db : McpDb) (form : FormData) : Except OAuthError Exchange := do
  let clientId ← getAuthenticatedClient rt db form
  let code ← requireString form "code"
  let redirectUri ← requireString form "redirect_uri"
  let codeVerifier ← requireString form "code_verifier"
  return { clientId, code, redirectUri, codeVerifier, resource := FormData.getText form "resource" }

/-- What a refresh presents. -/
structure Refresh where
  clientId : String
  refreshToken : String
  deriving DecidableEq

def readRefresh (rt : Runtime) (db : McpDb) (form : FormData) : Except OAuthError Refresh := do
  let clientId ← getAuthenticatedClient rt db form
  let refreshToken ← requireString form "refresh_token"
  return { clientId, refreshToken }

/-- The rows the `UPDATE` of an exchange matches. -/
def Exchange.redeems (rt : Runtime) (x : Exchange) (now : Int) (c : AuthorizationCode) : Bool :=
  c.codeHash = rt.hashToken x.code && c.clientId = x.clientId && c.redirectUri = x.redirectUri &&
    c.usedAt = none && now < c.expiresAt

/-- The checks of an exchange after its `UPDATE`. -/
def Exchange.check (rt : Runtime) (x : Exchange) (c : CodeInsert) : Except OAuthError Unit :=
  match nonEmpty x.resource with
  | some resource =>
      if c.resource ≠ resource then
        .error { code := "invalid_target", message := "Authorization code was issued for a different resource" }
      else if !verifyPkce rt x.codeVerifier c.codeChallenge c.codeChallengeMethod then
        .error { code := "invalid_grant", message := "PKCE verification failed" }
      else .ok ()
  | none =>
      if !verifyPkce rt x.codeVerifier c.codeChallenge c.codeChallengeMethod then
        .error { code := "invalid_grant", message := "PKCE verification failed" }
      else .ok ()

theorem check_ok {rt : Runtime} {x : Exchange} {c : CodeInsert} (ok : x.check rt c = .ok ()) :
    verifyPkce rt x.codeVerifier c.codeChallenge c.codeChallengeMethod = true := by
  unfold Exchange.check at ok
  split at ok
  · split at ok
    · cases ok
    · split at ok
      · cases ok
      · rename_i matching
        simpa using matching
  · split at ok
    · cases ok
    · rename_i matching
      simpa using matching

/-- The rows the first `UPDATE` of a refresh matches. -/
def Refresh.rotates (rt : Runtime) (x : Refresh) (now : Int) (t : OAuthToken) : Bool :=
  t.refreshTokenHash = rt.hashToken x.refreshToken && t.clientId = x.clientId && t.revokedAt = none &&
    now < t.refreshTokenExpiresAt

def MCP_ACCESS_TOKEN_TTL_SECONDS : Int := 60 * 60

def MCP_REFRESH_TOKEN_TTL_SECONDS : Int := 60 * 60 * 24 * 30

/-- The random values, the row id and the clock readings of one issue. -/
structure Drawn where
  accessToken : String
  refreshToken : String
  rowId : Nat
  accessNow : Int
  refreshNow : Int

/-- The row `issueTokens` inserts. -/
def issueTokens (rt : Runtime) (clientId subject scope resource : String) (d : Drawn) : TokenInsert where
  id := d.rowId
  accessTokenHash := rt.hashToken d.accessToken
  refreshTokenHash := rt.hashToken d.refreshToken
  clientId := clientId
  subject := subject
  scope := scope
  resource := resource
  accessTokenExpiresAt := d.accessNow + MCP_ACCESS_TOKEN_TTL_SECONDS * 1000
  refreshTokenExpiresAt := d.refreshNow + MCP_REFRESH_TOKEN_TTL_SECONDS * 1000

/-- The row `verifyAccessToken` selects. -/
def selectAccess (rt : Runtime) (db : McpDb) (accessToken : String) : Option OAuthToken :=
  db.tokens.find? fun t => t.accessTokenHash = rt.hashToken accessToken && t.revokedAt = none

/-- The checks of `verifyAccessToken` on the selected row. -/
def accepts (t : OAuthToken) (resource : String) (now : Int) : Bool :=
  now < t.accessTokenExpiresAt && t.resource = resource && (JsText.splitSpaces t.scope).contains MCP_READ_SCOPE

end BetterBullBoard
