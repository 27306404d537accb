import BetterBullBoard.Lib.UniqueIndex

/-! # Tables of the MCP authorization server

`mcp_oauth_clients`, `mcp_oauth_authorization_codes` and `mcp_oauth_tokens` with
the indexes that keep client ids, code hashes, token ids and token hashes
unique. The columns an `UPDATE` sets are apart from those an `INSERT` fixes.
No statement deletes a row. The clients' metadata and the `created_at` and
`updated_at` columns are left out: nothing modelled reads them.
-/

namespace BetterBullBoard

structure OAuthClient where
  clientId : String
  clientSecretHash : Option String
  clientName : String
  redirectUris : List String
  grantTypes : List String
  responseTypes : List String
  tokenEndpointAuthMethod : String
  scope : String
  deriving DecidableEq

structure CodeInsert where
  codeHash : String
  clientId : String
  redirectUri : String
  scope : String
  codeChallenge : String
  codeChallengeMethod : String
  resource : String
  subject : String
  expiresAt : Int
  deriving DecidableEq

structure AuthorizationCode extends CodeInsert where
  usedAt : Option Int := none
  deriving DecidableEq

structure TokenInsert where
  id : Nat
  accessTokenHash : String
  refreshTokenHash : String
  clientId : String
  subject : String
  scope : String
  resource : String
  accessTokenExpiresAt : Int
  refreshTokenExpiresAt : Int
  deriving DecidableEq

structure TokenMarks where
  revokedAt : Option Int := none
  lastUsedAt : Option Int := none
  rotatedAt : Option Int := none
  replacedByTokenId : Option Nat := none
  deriving DecidableEq

structure OAuthToken extends TokenInsert, TokenMarks
  deriving DecidableEq

structure McpDb where
  clients : List OAuthClient
  codes : List AuthorizationCode
  tokens : List OAuthToken
  clientIds : (clients.map (·.clientId)).Nodup
  codeHashes : (codes.map (·.codeHash)).Nodup
  tokenIds : (tokens.map (·.id)).Nodup
  accessTokenHashes : (tokens.map (·.accessTokenHash)).Nodup
  refreshTokenHashes : (tokens.map (·.refreshTokenHash)).Nodup

namespace McpDb

def empty : McpDb where
  clients := []
  codes := []
  tokens := []
  clientIds := List.nodup_nil
  codeHashes := List.nodup_nil
  tokenIds := List.nodup_nil
  accessTokenHashes := List.nodup_nil
  refreshTokenHashes := List.nodup_nil

/-! ## Statements

An `INSERT` that breaks an index fails. -/

def selectClient (db : McpDb) (clientId : String) : Option OAuthClient :=
  db.clients.find? fun c => c.clientId = clientId

def insertClient (db : McpDb) (client : OAuthClient) : Option McpDb :=
  if fresh : ∀ c ∈ db.clients, c.clientId ≠ client.clientId then
    some { db with clients := db.clients ++ [client], clientIds := UniqueIndex.nodup_insert db.clientIds fresh }
  else none

def insertCode (db : McpDb) (code : CodeInsert) : Option McpDb :=
  if fresh : ∀ c ∈ db.codes, c.codeHash ≠ code.codeHash then
    some { db with
      codes := db.codes ++ [{ toCodeInsert := code }]
      codeHashes := UniqueIndex.nodup_insert db.codeHashes fresh }
  else none

def insertToken (db : McpDb) (token : TokenInsert) : Option McpDb :=
  if fresh : (∀ t ∈ db.tokens, t.id ≠ token.id) ∧ (∀ t ∈ db.tokens, t.accessTokenHash ≠ token.accessTokenHash) ∧
      ∀ t ∈ db.tokens, t.refreshTokenHash ≠ token.refreshTokenHash then
    some { db with
      tokens := db.tokens ++ [{ toTokenInsert := token }]
      tokenIds := UniqueIndex.nodup_insert db.tokenIds fresh.1
      accessTokenHashes := UniqueIndex.nodup_insert db.accessTokenHashes fresh.2.1
      refreshTokenHashes := UniqueIndex.nodup_insert db.refreshTokenHashes fresh.2.2 }
  else none

/-- `UPDATE mcp_oauth_authorization_codes SET used_at = .. WHERE ..` -/
def updateCodes (db : McpDb) (usedAt : Int) (wher : AuthorizationCode → Bool) : McpDb :=
  { db with
    codes := db.codes.map fun c => if wher c then { c with usedAt := some usedAt } else c
    codeHashes := by
      rw [List.map_map]
      refine (congrArg List.Nodup (List.map_congr_left fun c _ => ?_)).mpr db.codeHashes
      dsimp only [Function.comp]
      split <;> rfl }

/-- What an `UPDATE` makes of a row of `mcp_oauth_tokens`. -/
def updateToken (set : TokenMarks → TokenMarks) (wher : OAuthToken → Bool) (t : OAuthToken) : OAuthToken :=
  if wher t then { t with toTokenMarks := set t.toTokenMarks } else t

@[simp] theorem updateToken_insert (set : TokenMarks → TokenMarks) (wher : OAuthToken → Bool) (t : OAuthToken) :
    (updateToken set wher t).toTokenInsert = t.toTokenInsert := by
  unfold updateToken
  split <;> rfl

/-- `UPDATE mcp_oauth_tokens SET .. WHERE ..` -/
def updateTokens (db : McpDb) (set : TokenMarks → TokenMarks) (wher : OAuthToken → Bool) : McpDb :=
  { db with
    tokens := db.tokens.map (updateToken set wher)
    tokenIds := by simpa only [List.map_map, Function.comp_def, updateToken_insert] using db.tokenIds
    accessTokenHashes := by simpa only [List.map_map, Function.comp_def, updateToken_insert] using db.accessTokenHashes
    refreshTokenHashes := by
      simpa only [List.map_map, Function.comp_def, updateToken_insert] using db.refreshTokenHashes }

variable (db : McpDb)

@[simp] theorem updateCodes_clients (usedAt : Int) (wher : AuthorizationCode → Bool) :
    (db.updateCodes usedAt wher).clients = db.clients := rfl

@[simp] theorem updateCodes_tokens (usedAt : Int) (wher : AuthorizationCode → Bool) :
    (db.updateCodes usedAt wher).tokens = db.tokens := rfl

@[simp] theorem updateTokens_clients (set : TokenMarks → TokenMarks) (wher : OAuthToken → Bool) :
    (db.updateTokens set wher).clients = db.clients := rfl

theorem updateTokens_tokens (set : TokenMarks → TokenMarks) (wher : OAuthToken → Bool) :
    (db.updateTokens set wher).tokens = db.tokens.map (updateToken set wher) := rfl

@[simp] theorem updateTokens_codes (set : TokenMarks → TokenMarks) (wher : OAuthToken → Bool) :
    (db.updateTokens set wher).codes = db.codes := rfl

end McpDb

end BetterBullBoard
