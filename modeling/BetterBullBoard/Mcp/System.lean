import Mathlib.Logic.Function.Basic
import BetterBullBoard.Lib.Machine
import BetterBullBoard.Lib.RowLocks
import BetterBullBoard.Mcp.OAuth

/-! # The authorization server and its clients

Every request is a party of its own that performs one database statement after
another, so requests interleave between statements. A transaction holds the row
its `UPDATE` claimed until it ends: others that would update the row wait, and
readers see the committed row. Its insert and its commit are one step, since
nobody sees the one before the other. The history lists what was granted,
accepted and executed, the newest first.
-/

namespace BetterBullBoard

/-! ## Tools -/

inductive McpTool where
  | getSystemOverview
  | listQueues
  | listJobs
  | getJob
  | listJobLogs
  | cancelJob
  | replayJob
  | pauseQueue
  | resumeQueue
  | deleteQueue
  deriving DecidableEq

def requireWriteAccess (scopes : List String) : Except String Unit :=
  if !scopes.contains MCP_WRITE_SCOPE then
    .error "This MCP access token does not include the bbb:write scope required for this tool."
  else .ok ()

/-- The action a tool's handler comes to. -/
def handleTool (scopes : List String) : McpTool → Except String McpTool
  | .getSystemOverview => .ok .getSystemOverview
  | .listQueues => .ok .listQueues
  | .listJobs => .ok .listJobs
  | .getJob => .ok .getJob
  | .listJobLogs => .ok .listJobLogs
  | .cancelJob => do requireWriteAccess scopes; return .cancelJob
  | .replayJob => do requireWriteAccess scopes; return .replayJob
  | .pauseQueue => do requireWriteAccess scopes; return .pauseQueue
  | .resumeQueue => do requireWriteAccess scopes; return .resumeQueue
  | .deleteQueue => do requireWriteAccess scopes; return .deleteQueue

def writeTools : List McpTool := [.cancelJob, .replayJob, .pauseQueue, .resumeQueue, .deleteQueue]

/-- A write tool acts only under the write scope. -/
theorem handleTool_write {scopes : List String} {tool action : McpTool} (handled : handleTool scopes tool = .ok action)
    (write : action ∈ writeTools) : MCP_WRITE_SCOPE ∈ scopes := by
  have required : requireWriteAccess scopes = .ok () := by
    cases checked : requireWriteAccess scopes with
    | ok => rfl
    | error =>
        cases tool with
        | getSystemOverview | listQueues | listJobs | getJob | listJobLogs =>
            cases Except.ok.inj handled
            simp [writeTools] at write
        | cancelJob | replayJob | pauseQueue | resumeQueue | deleteQueue =>
            simp [handleTool, checked, bind, Except.bind] at handled
  unfold requireWriteAccess at required
  split at required
  · cases required
  · rename_i listed
    simpa using listed

/-! ## State -/

/-- The exchange that redeems a code. -/
structure Redemption where
  exchange : Exchange
  code : CodeInsert
  /-- The clock reading its `UPDATE` compares the expiry with. -/
  now : Int
  deriving DecidableEq

inductive Event where
  | approved (user code : String) (row : CodeInsert)
  | exchanged (redemption : Redemption) (accessToken : String) (row : TokenInsert)
  | refreshed (refresh : Refresh) (old : TokenInsert) (accessToken : String) (row : TokenInsert)
  | accepted (r : Nat) (bearer : String) (row : OAuthToken) (resource : String) (now : Int)
  | executed (r : Nat) (tool : McpTool)
  deriving DecidableEq

/-- Where a request stands. -/
inductive Request where
  | approving (user : String) (authorization : Authorization)
  | exchanging (exchange : Exchange)
  | codeClaimed (redemption : Redemption) (usedAt : Int)
  | refreshing (refresh : Refresh)
  | tokenClaimed (refresh : Refresh) (row : TokenInsert) (now : Int)
  | revoking (tokenHash : String) (revokedAt : Int)
  | verified (row : OAuthToken)
  | serving (scopes : List String)
  | done
  | failed (error : OAuthError)

/-- The rows transactions hold. -/
inductive McpRow where
  | code (codeHash : String)
  | token (id : Nat)
  deriving DecidableEq

structure McpSystem where
  db : McpDb := .empty
  requests : Nat → Option Request := fun _ => none
  locks : McpRow → Option Nat := fun _ => none
  history : List Event := []

inductive McpAction where
  | register (metadata : JsValue) (clientId clientSecret : String)
  | approve (r : Nat) (user : Option String) (request : HttpRequest) (form : FormData)
  | createCode (r : Nat) (code : String) (now : Int)
  | token (r : Nat) (form : FormData)
  | claimCode (r : Nat) (usedAt now : Int)
  | exchange (r : Nat) (drawn : Drawn)
  | claimToken (r : Nat) (now : Int)
  | refresh (r : Nat) (drawn : Drawn)
  | abort (r : Nat)
  | revoke (r : Nat) (form : FormData) (revokedAt : Int)
  | revokeRefresh (r : Nat)
  | mcp (r : Nat) (request : HttpRequest) (now : Int)
  | touch (r : Nat) (lastUsedAt : Int)
  | callTool (r : Nat) (tool : McpTool)
  | close (r : Nat)

namespace McpSystem

def set (s : McpSystem) (r : Nat) (q : Request) : McpSystem :=
  { s with requests := Function.update s.requests r (some q) }

/-- The transaction of a request ends. -/
def release (s : McpSystem) (r : Nat) : McpSystem := { s with locks := RowLocks.release s.locks r }

def record (s : McpSystem) (e : Event) : McpSystem := { s with history := e :: s.history }

/-- What an error that no handler expects is answered with. -/
def unexpected : OAuthError := { code := "server_error", message := "Unexpected OAuth error", status := 500 }

/-- No transaction holds a row the `UPDATE` matches. -/
def Free (s : McpSystem) (wher : OAuthToken → Bool) : Prop :=
  ∀ t ∈ s.db.tokens, wher t = true → s.locks (.token t.id) = none

instance (s : McpSystem) (wher : OAuthToken → Bool) : Decidable (s.Free wher) :=
  inferInstanceAs (Decidable (∀ t ∈ s.db.tokens, wher t = true → s.locks (.token t.id) = none))

/-! ## Endpoints -/

variable (rt : Runtime)

def register (s : McpSystem) (metadata : JsValue) (clientId clientSecret : String) : McpSystem :=
  match normalizeClientRegistration rt metadata with
  | .error _ => s
  | .ok registration =>
      match s.db.insertClient (registration.client rt clientId clientSecret) with
      | none => s
      | some db => { s with db }

/-- The form is read, the request validated and the decision looked at. -/
def approve (s : McpSystem) (r : Nat) (user : Option String) (request : HttpRequest) (form : FormData) : McpSystem :=
  match user with
  | none => s.set r (.failed { code := "Not authenticated", message := "", status := 401 })
  | some email =>
      match FormData.get form "authorize_url" with
      | some (.text rawAuthorizeUrl) =>
          let origin := getOrigin request
          match rt.parseUrl rawAuthorizeUrl (some origin) with
          | none => s.set r (.failed unexpected)
          | some authorizeUrl =>
              match validateAuthorizationRequest s.db authorizeUrl (some (getMcpResource origin)) with
              -- the route catches no error
              | .error _ => s.set r (.failed unexpected)
              | .ok authorization =>
                  if FormData.get form "decision" ≠ some (.text "approve") then s.set r .done
                  else s.set r (.approving email authorization)
      | _ => s.set r (.failed { code := "Missing authorization request", message := "" })

def createCode (s : McpSystem) (r : Nat) (user : String) (authorization : Authorization) (code : String)
    (now : Int) : McpSystem :=
  let row := createAuthorizationCode rt authorization user code now
  match s.db.insertCode row with
  | none => s.set r (.failed unexpected)
  | some db => ({ s with db }.set r .done).record (.approved user code row)

def token (s : McpSystem) (r : Nat) (form : FormData) : McpSystem :=
  if FormData.get form "grant_type" = some (.text "authorization_code") then
    match readExchange rt s.db form with
    | .error e => s.set r (.failed e)
    | .ok exchange => s.set r (.exchanging exchange)
  else if FormData.get form "grant_type" = some (.text "refresh_token") then
    match readRefresh rt s.db form with
    | .error e => s.set r (.failed e)
    | .ok refresh => s.set r (.refreshing refresh)
  else s.set r (.failed { code := "unsupported_grant_type", message := "" })

/-- The `UPDATE` of `exchangeAuthorizationCode`. -/
def claimCode (s : McpSystem) (r : Nat) (exchange : Exchange) (usedAt now : Int) : Option McpSystem :=
  match s.db.codes.find? (exchange.redeems rt now) with
  | none =>
      some (s.set r (.failed { code := "invalid_grant", message := "Authorization code is invalid or expired" }))
  | some c =>
      if s.locks (.code c.codeHash) = none then
        some ({ s with locks := RowLocks.acquire s.locks (.code c.codeHash) r }.set r
          (.codeClaimed ⟨exchange, c.toCodeInsert, now⟩ usedAt))
      else none

def rollback (s : McpSystem) (r : Nat) (e : OAuthError) : McpSystem := (s.release r).set r (.failed e)

/-- The rest of `exchangeAuthorizationCode`, to the end of its transaction. -/
def exchange (s : McpSystem) (r : Nat) (redemption : Redemption) (usedAt : Int) (drawn : Drawn) : McpSystem :=
  let code := redemption.code
  match redemption.exchange.check rt code with
  | .error e => s.rollback r e
  | .ok () =>
      let row := issueTokens rt redemption.exchange.clientId code.subject code.scope code.resource drawn
      match (s.db.updateCodes usedAt fun c => c.codeHash = code.codeHash).insertToken row with
      | none => s.rollback r unexpected
      | some db =>
          (({ s with db }.release r).set r .done).record (.exchanged redemption drawn.accessToken row)

/-- The first `UPDATE` of `exchangeRefreshToken`. -/
def claimToken (s : McpSystem) (r : Nat) (refresh : Refresh) (now : Int) : Option McpSystem :=
  match s.db.tokens.find? (refresh.rotates rt now) with
  | none =>
      some (s.set r (.failed { code := "invalid_grant", message := "Refresh token is invalid or expired" }))
  | some t =>
      if s.locks (.token t.id) = none then
        some ({ s with locks := RowLocks.acquire s.locks (.token t.id) r }.set r
          (.tokenClaimed refresh t.toTokenInsert now))
      else none

/-- The rest of `exchangeRefreshToken`, to the end of its transaction. -/
def refresh (s : McpSystem) (r : Nat) (refresh : Refresh) (old : TokenInsert) (now : Int) (drawn : Drawn) :
    McpSystem :=
  let row := issueTokens rt refresh.clientId old.subject old.scope old.resource drawn
  let claimed := s.db.updateTokens (fun m => { m with revokedAt := some now, rotatedAt := some now })
    fun t => t.id = old.id
  match claimed.insertToken row with
  | none => s.rollback r unexpected
  | some db =>
      let db := db.updateTokens (fun m => { m with replacedByTokenId := some row.id }) fun t => t.id = old.id
      (({ s with db }.release r).set r .done).record (.refreshed refresh old drawn.accessToken row)

/-- `revokeToken`, to its first `UPDATE`. -/
def revoke (s : McpSystem) (r : Nat) (form : FormData) (revokedAt : Int) : Option McpSystem :=
  match requireString form "token" with
  | .error e => some (s.set r (.failed e))
  | .ok token =>
      let tokenHash := rt.hashToken token
      if s.Free fun t => t.accessTokenHash = tokenHash then
        some ({ s with
          db := s.db.updateTokens (fun m => { m with revokedAt := some revokedAt }) fun t =>
            t.accessTokenHash = tokenHash }.set r (.revoking tokenHash revokedAt))
      else none

/-- The second `UPDATE` of `revokeToken`. -/
def revokeRefresh (s : McpSystem) (r : Nat) (tokenHash : String) (revokedAt : Int) : Option McpSystem :=
  if s.Free fun t => t.refreshTokenHash = tokenHash then
    some ({ s with
      db := s.db.updateTokens (fun m => { m with revokedAt := some revokedAt }) fun t =>
        t.refreshTokenHash = tokenHash }.set r .done)
  else none

/-- `handleMcpRequest`, to the lookup of `verifyAccessToken` and its checks. -/
def mcp (s : McpSystem) (r : Nat) (request : HttpRequest) (now : Int) : McpSystem :=
  let unauthorized := s.set r (.failed { code := "Unauthorized", message := "", status := 401 })
  match nonEmpty (getBearerToken request) with
  | none => unauthorized
  | some bearer =>
      let resource := getMcpResource (getOrigin request)
      match selectAccess rt s.db bearer with
      | none => unauthorized
      | some t =>
          if accepts t resource now then (s.set r (.verified t)).record (.accepted r bearer t resource now)
          else unauthorized

/-- The `UPDATE` of `verifyAccessToken`. -/
def touch (s : McpSystem) (r : Nat) (row : OAuthToken) (lastUsedAt : Int) : Option McpSystem :=
  if s.Free fun t => t.id = row.id then
    some ({ s with
      db := s.db.updateTokens (fun m => { m with lastUsedAt := some lastUsedAt }) fun t => t.id = row.id }.set r
        (.serving (JsText.splitSpaces row.scope)))
  else none

def callTool (s : McpSystem) (r : Nat) (scopes : List String) (tool : McpTool) : McpSystem :=
  match handleTool scopes tool with
  | .error _ => s
  | .ok action => s.record (.executed r action)

/-! ## Steps -/

/-- A step of a request is enabled where the request stands. -/
def step (s : McpSystem) : McpAction → Option McpSystem
  | .register metadata clientId clientSecret => some (s.register rt metadata clientId clientSecret)
  | .approve r user request form =>
      match s.requests r with
      | none => some (s.approve rt r user request form)
      | some _ => none
  | .createCode r code now =>
      match s.requests r with
      | some (.approving user authorization) => some (s.createCode rt r user authorization code now)
      | _ => none
  | .token r form =>
      match s.requests r with
      | none => some (s.token rt r form)
      | some _ => none
  | .claimCode r usedAt now =>
      match s.requests r with
      | some (.exchanging exchange) => s.claimCode rt r exchange usedAt now
      | _ => none
  | .exchange r drawn =>
      match s.requests r with
      | some (.codeClaimed redemption usedAt) => some (s.exchange rt r redemption usedAt drawn)
      | _ => none
  | .claimToken r now =>
      match s.requests r with
      | some (.refreshing refresh) => s.claimToken rt r refresh now
      | _ => none
  | .refresh r drawn =>
      match s.requests r with
      | some (.tokenClaimed refresh old now) => some (s.refresh rt r refresh old now drawn)
      | _ => none
  | .abort r =>
      match s.requests r with
      | none | some .done | some (.failed _) => none
      | some _ => some (s.rollback r unexpected)
  | .revoke r form revokedAt =>
      match s.requests r with
      | none => s.revoke rt r form revokedAt
      | some _ => none
  | .revokeRefresh r =>
      match s.requests r with
      | some (.revoking tokenHash revokedAt) => s.revokeRefresh r tokenHash revokedAt
      | _ => none
  | .mcp r request now =>
      match s.requests r with
      | none => some (s.mcp rt r request now)
      | some _ => none
  | .touch r lastUsedAt =>
      match s.requests r with
      | some (.verified row) => s.touch r row lastUsedAt
      | _ => none
  | .callTool r tool =>
      match s.requests r with
      | some (.serving scopes) => some (s.callTool r scopes tool)
      | _ => none
  | .close r =>
      match s.requests r with
      | some (.serving _) => some (s.set r .done)
      | _ => none

end McpSystem

end BetterBullBoard
