import BetterBullBoard.Mcp.System

/-! # What a step can do

Every step of the server has one of a few effects, each with the facts its code
checked. Results about runs are case analyses over the effects.
-/

namespace BetterBullBoard

namespace McpDb

variable {db db' : McpDb}

theorem insertClient_some {client : OAuthClient} (inserted : db.insertClient client = some db') :
    db'.clients = db.clients ++ [client] ∧ db'.codes = db.codes ∧ db'.tokens = db.tokens := by
  unfold insertClient at inserted
  split at inserted
  · cases inserted
    exact ⟨rfl, rfl, rfl⟩
  · cases inserted

theorem insertCode_some {row : CodeInsert} (inserted : db.insertCode row = some db') :
    (∀ c ∈ db.codes, c.codeHash ≠ row.codeHash) ∧ db'.clients = db.clients ∧
      db'.codes = db.codes ++ [{ toCodeInsert := row }] ∧ db'.tokens = db.tokens := by
  unfold insertCode at inserted
  split at inserted
  · rename_i fresh
    cases inserted
    exact ⟨fresh, rfl, rfl, rfl⟩
  · cases inserted

theorem insertToken_some {row : TokenInsert} (inserted : db.insertToken row = some db') :
    (∀ t ∈ db.tokens, t.id ≠ row.id) ∧ db'.clients = db.clients ∧ db'.codes = db.codes ∧
      db'.tokens = db.tokens ++ [{ toTokenInsert := row }] := by
  unfold insertToken at inserted
  split at inserted
  · rename_i fresh
    cases inserted
    exact ⟨fresh.1, rfl, rfl, rfl⟩
  · cases inserted

theorem insertToken_updated {set : TokenMarks → TokenMarks} {wher : OAuthToken → Bool} {row : TokenInsert}
    (inserted : (db.updateTokens set wher).insertToken row = some db') :
    (∀ t ∈ db.tokens, t.id ≠ row.id) ∧ db'.clients = db.clients ∧ db'.codes = db.codes ∧
      db'.tokens = db.tokens.map (updateToken set wher) ++ [{ toTokenInsert := row }] := by
  obtain ⟨fresh, clients, codes, tokens⟩ := insertToken_some inserted
  refine ⟨fun t ht => ?_, clients, codes, tokens⟩
  simpa using fresh (updateToken set wher t) (List.mem_map_of_mem ht)

/-- What a refresh leaves of a row when it rotates the one with this id. -/
def rotated (id : Nat) (now : Int) (newId : Nat) : OAuthToken → OAuthToken :=
  updateToken (fun m => { m with revokedAt := some now, rotatedAt := some now, replacedByTokenId := some newId })
    fun t => t.id = id

/-- The three statements of a refresh rotate one row and append one. -/
theorem refreshed_rows {id : Nat} {now : Int} {row : TokenInsert} (stored : ∃ t ∈ db.tokens, t.id = id)
    (inserted : (db.updateTokens (fun m => { m with revokedAt := some now, rotatedAt := some now })
      fun t => t.id = id).insertToken row = some db') :
    (db'.updateTokens (fun m => { m with replacedByTokenId := some row.id }) fun t => t.id = id).tokens =
      db.tokens.map (rotated id now row.id) ++ [{ toTokenInsert := row }] := by
  obtain ⟨fresh, -, -, tokens⟩ := insertToken_updated inserted
  obtain ⟨old, member, rfl⟩ := stored
  have other : row.id ≠ old.id := (fresh old member).symm
  rw [updateTokens_tokens, tokens, List.map_append, List.map_map]
  congr 1
  · apply List.map_congr_left
    intro t _
    by_cases same : t.id = old.id <;> simp [rotated, updateToken, same]
  · simp [updateToken, other]

end McpDb

namespace McpSystem

variable (rt : Runtime)

/-- The requests another step may leave behind, apart from those a transaction or
    a verification leaves. -/
def Enters (s : McpSystem) (r : Nat) : Request → Prop
  | .approving _ a => a.client ∈ s.db.clients ∧ ∃ scope, parseScopes scope = .ok a.scope
  | .serving scopes => ∃ row, s.requests r = some (.verified row) ∧ scopes = JsText.splitSpaces row.scope
  | .codeClaimed _ _ | .tokenClaimed _ _ _ | .verified _ => False
  | _ => True

/-- The request has not ended. -/
def Open (s : McpSystem) (r : Nat) : Prop := s.requests r ≠ some .done ∧ ∀ e, s.requests r ≠ some (.failed e)

inductive Effect (s : McpSystem) : McpSystem → Prop where
  | idle : Effect s s
  | moves (r q) : s.Open r → s.Enters r q → Effect s (s.set r q)
  | registers (client : OAuthClient) (db) : s.db.insertClient client = some db →
      "authorization_code" ∈ client.grantTypes → Effect s { s with db }
  | approves (r user a code now db) : s.requests r = some (.approving user a) →
      s.db.insertCode (createAuthorizationCode rt a user code now) = some db →
      Effect s (({ s with db }.set r .done).record (.approved user code (createAuthorizationCode rt a user code now)))
  | claimsCode (r) (x : Exchange) (usedAt now) (c : AuthorizationCode) : s.Open r → c ∈ s.db.codes →
      x.redeems rt now c = true → s.locks (.code c.codeHash) = none →
      Effect s ({ s with locks := RowLocks.acquire s.locks (.code c.codeHash) r }.set r
        (.codeClaimed ⟨x, c.toCodeInsert, now⟩ usedAt))
  | exchanges (r) (d : Redemption) (usedAt) (drawn : Drawn) (row db) :
      s.requests r = some (.codeClaimed d usedAt) → d.exchange.check rt d.code = .ok () →
      row = issueTokens rt d.exchange.clientId d.code.subject d.code.scope d.code.resource drawn →
      (s.db.updateCodes usedAt fun c => c.codeHash = d.code.codeHash).insertToken row = some db →
      Effect s ((({ s with db }.release r).set r .done).record (.exchanged d drawn.accessToken row))
  | claimsToken (r) (x : Refresh) (now) (t : OAuthToken) : s.Open r → t ∈ s.db.tokens →
      x.rotates rt now t = true → s.locks (.token t.id) = none →
      Effect s ({ s with locks := RowLocks.acquire s.locks (.token t.id) r }.set r
        (.tokenClaimed x t.toTokenInsert now))
  | refreshes (r) (x : Refresh) (old : TokenInsert) (now) (drawn : Drawn) (row db) :
      s.requests r = some (.tokenClaimed x old now) →
      row = issueTokens rt x.clientId old.subject old.scope old.resource drawn →
      (s.db.updateTokens (fun m => { m with revokedAt := some now, rotatedAt := some now })
        fun t => t.id = old.id).insertToken row = some db →
      Effect s ((({ s with
        db := db.updateTokens (fun m => { m with replacedByTokenId := some row.id }) fun t => t.id = old.id
        }.release r).set r .done).record (.refreshed x old drawn.accessToken row))
  | rollsBack (r e) : s.Open r → Effect s (s.rollback r e)
  | marks (r q) (set : TokenMarks → TokenMarks) (wher : OAuthToken → Bool) : s.Open r → s.Free wher → s.Enters r q →
      (∀ m, m.revokedAt ≠ none → (set m).revokedAt ≠ none) →
      Effect s ({ s with db := s.db.updateTokens set wher }.set r q)
  | accepts (r) (bearer : String) (t : OAuthToken) (resource now) : s.requests r = none → t ∈ s.db.tokens →
      t.accessTokenHash = rt.hashToken bearer → t.revokedAt = none → accepts t resource now = true →
      Effect s ((s.set r (.verified t)).record (.accepted r bearer t resource now))
  | executes (r scopes action) : s.requests r = some (.serving scopes) →
      (action ∈ writeTools → MCP_WRITE_SCOPE ∈ scopes) → Effect s (s.record (.executed r action))

variable {rt} {s s' : McpSystem}

/-! ## One lemma for each endpoint -/

theorem register_effect (s : McpSystem) (metadata : JsValue) (clientId clientSecret : String) :
    Effect rt s (s.register rt metadata clientId clientSecret) := by
  unfold register
  split
  · exact .idle
  · rename_i registration normal
    split
    · exact .idle
    · rename_i db inserted
      exact .registers _ db inserted (registration_grants normal)

theorem open_of_none {r : Nat} (stands : s.requests r = none) : s.Open r := by simp [Open, stands]

theorem approve_effect {r : Nat} (active : s.Open r) (user : Option String) (request : HttpRequest) (form : FormData) :
    Effect rt s (s.approve rt r user request form) := by
  unfold approve
  split
  · exact .moves _ _ active trivial
  · split
    · dsimp only
      split
      · exact .moves _ _ active trivial
      · split
        · exact .moves _ _ active trivial
        · rename_i valid
          split
          · exact .moves _ _ active trivial
          · obtain ⟨member, -, scope, -⟩ := authorization_ok valid
            exact .moves _ _ active ⟨member, _, scope⟩
    · exact .moves _ _ active trivial

theorem createCode_effect {r : Nat} {user : String} {a : Authorization}
    (stands : s.requests r = some (.approving user a)) (code : String) (now : Int) :
    Effect rt s (s.createCode rt r user a code now) := by
  have active : s.Open r := by simp [Open, stands]
  unfold createCode
  dsimp only
  split
  · exact .moves _ _ active trivial
  · rename_i db inserted
    exact .approves r user a code now db stands inserted

theorem token_effect {r : Nat} (active : s.Open r) (form : FormData) : Effect rt s (s.token rt r form) := by
  unfold token
  split
  · split <;> exact .moves _ _ active trivial
  · split
    · split <;> exact .moves _ _ active trivial
    · exact .moves _ _ active trivial

theorem claimCode_effect {r : Nat} {x : Exchange} {usedAt now : Int} (active : s.Open r)
    (claimed : s.claimCode rt r x usedAt now = some s') : Effect rt s s' := by
  unfold claimCode at claimed
  split at claimed
  · cases claimed
    exact .moves _ _ active trivial
  · rename_i c found
    split at claimed
    · rename_i free
      cases claimed
      exact .claimsCode r x usedAt now c active (List.mem_of_find?_eq_some found) (List.find?_some found) free
    · cases claimed

theorem exchange_effect {r : Nat} {d : Redemption} {usedAt : Int}
    (stands : s.requests r = some (.codeClaimed d usedAt)) (drawn : Drawn) :
    Effect rt s (s.exchange rt r d usedAt drawn) := by
  have active : s.Open r := by simp [Open, stands]
  unfold exchange
  dsimp only
  split
  · exact .rollsBack r _ active
  · rename_i checked
    split
    · exact .rollsBack r _ active
    · rename_i db inserted
      exact .exchanges r d usedAt drawn _ db stands checked rfl inserted

theorem claimToken_effect {r : Nat} {x : Refresh} {now : Int} (active : s.Open r)
    (claimed : s.claimToken rt r x now = some s') : Effect rt s s' := by
  unfold claimToken at claimed
  split at claimed
  · cases claimed
    exact .moves _ _ active trivial
  · rename_i t found
    split at claimed
    · rename_i free
      cases claimed
      exact .claimsToken r x now t active (List.mem_of_find?_eq_some found) (List.find?_some found) free
    · cases claimed

theorem refresh_effect {r : Nat} {x : Refresh} {old : TokenInsert} {now : Int}
    (stands : s.requests r = some (.tokenClaimed x old now)) (drawn : Drawn) :
    Effect rt s (s.refresh rt r x old now drawn) := by
  have active : s.Open r := by simp [Open, stands]
  unfold refresh
  dsimp only
  split
  · exact .rollsBack r _ active
  · rename_i db inserted
    exact .refreshes r x old now drawn _ db stands rfl inserted

theorem revoke_effect {r : Nat} {form : FormData} {revokedAt : Int} (active : s.Open r)
    (revoked : s.revoke rt r form revokedAt = some s') : Effect rt s s' := by
  unfold revoke at revoked
  split at revoked
  · cases revoked
    exact .moves _ _ active trivial
  · dsimp only at revoked
    split at revoked
    · rename_i free
      cases revoked
      exact .marks r _ _ _ active free trivial (by simp)
    · cases revoked

theorem revokeRefresh_effect {r : Nat} {tokenHash : String} {revokedAt : Int} (active : s.Open r)
    (revoked : s.revokeRefresh r tokenHash revokedAt = some s') : Effect rt s s' := by
  unfold revokeRefresh at revoked
  split at revoked
  · rename_i free
    cases revoked
    exact .marks r _ _ _ active free trivial (by simp)
  · cases revoked

theorem selectAccess_some {db : McpDb} {bearer : String} {t : OAuthToken} (found : selectAccess rt db bearer = some t) :
    t ∈ db.tokens ∧ t.accessTokenHash = rt.hashToken bearer ∧ t.revokedAt = none := by
  have matched := List.find?_some found
  simp only [Bool.and_eq_true, decide_eq_true_eq] at matched
  exact ⟨List.mem_of_find?_eq_some found, matched⟩

theorem mcp_effect {r : Nat} (free : s.requests r = none) (request : HttpRequest) (now : Int) :
    Effect rt s (s.mcp rt r request now) := by
  have active := open_of_none free
  unfold mcp
  dsimp only
  split
  · exact .moves _ _ active trivial
  · rename_i bearer _
    split
    · exact .moves _ _ active trivial
    · rename_i t found
      split
      · rename_i accepted
        obtain ⟨member, hash, live⟩ := selectAccess_some found
        exact .accepts r bearer t _ now free member hash live accepted
      · exact .moves _ _ active trivial

theorem touch_effect {r : Nat} {row : OAuthToken} {lastUsedAt : Int} (stands : s.requests r = some (.verified row))
    (touched : s.touch r row lastUsedAt = some s') : Effect rt s s' := by
  have active : s.Open r := by simp [Open, stands]
  unfold touch at touched
  split at touched
  · rename_i free
    cases touched
    exact .marks r _ _ _ active free ⟨row, stands, rfl⟩ (fun _ revoked => revoked)
  · cases touched

theorem callTool_effect {r : Nat} {scopes : List String} (stands : s.requests r = some (.serving scopes))
    (tool : McpTool) : Effect rt s (s.callTool r scopes tool) := by
  unfold callTool
  split
  · exact .idle
  · rename_i action handled
    exact .executes r scopes action stands (handleTool_write handled)

theorem step_effect {a : McpAction} (enabled : s.step rt a = some s') : Effect rt s s' := by
  cases a with
  | register metadata clientId clientSecret =>
      cases Option.some.inj enabled
      exact register_effect s metadata clientId clientSecret
  | approve r user request form =>
      simp only [step] at enabled
      split at enabled <;> cases enabled
      exact approve_effect (open_of_none ‹_›) user request form
  | createCode r code now =>
      simp only [step] at enabled
      split at enabled <;> cases enabled
      exact createCode_effect ‹_› code now
  | token r form =>
      simp only [step] at enabled
      split at enabled <;> cases enabled
      exact token_effect (open_of_none ‹_›) form
  | claimCode r usedAt now =>
      simp only [step] at enabled
      split at enabled
      · rename_i stands
        exact claimCode_effect (by simp [Open, stands]) enabled
      · cases enabled
  | exchange r drawn =>
      simp only [step] at enabled
      split at enabled <;> cases enabled
      exact exchange_effect ‹_› drawn
  | claimToken r now =>
      simp only [step] at enabled
      split at enabled
      · rename_i stands
        exact claimToken_effect (by simp [Open, stands]) enabled
      · cases enabled
  | refresh r drawn =>
      simp only [step] at enabled
      split at enabled <;> cases enabled
      exact refresh_effect ‹_› drawn
  | abort r =>
      simp only [step] at enabled
      split at enabled <;> cases enabled
      rename_i unfinished failed stands
      exact .rollsBack r _ ⟨by simpa [stands] using unfinished, by simpa [stands] using failed⟩
  | revoke r form revokedAt =>
      simp only [step] at enabled
      split at enabled
      · exact revoke_effect (open_of_none ‹_›) enabled
      · cases enabled
  | revokeRefresh r =>
      simp only [step] at enabled
      split at enabled
      · rename_i stands
        exact revokeRefresh_effect (by simp [Open, stands]) enabled
      · cases enabled
  | mcp r request now =>
      simp only [step] at enabled
      split at enabled <;> cases enabled
      exact mcp_effect ‹_› request now
  | touch r lastUsedAt =>
      simp only [step] at enabled
      split at enabled
      · exact touch_effect ‹_› enabled
      · cases enabled
  | callTool r tool =>
      simp only [step] at enabled
      split at enabled <;> cases enabled
      exact callTool_effect ‹_› tool
  | close r =>
      simp only [step] at enabled
      split at enabled <;> cases enabled
      rename_i stands
      exact .moves _ _ (by simp [Open, stands]) trivial

end McpSystem

end BetterBullBoard
