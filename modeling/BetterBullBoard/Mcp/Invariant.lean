import BetterBullBoard.Mcp.Effects

/-! # What holds between requests

The chain of refreshes of a token row is read off the history. Rows, clients and
events only accumulate, and the row a transaction holds stays as it was claimed;
from that, every row traces back to an approved code that was redeemed by the
rules.
-/

namespace BetterBullBoard

/-- The redemption that began the chain of refreshes leading to a token row. -/
def chainStart : List Event → Nat → Option Redemption
  | [], _ => none
  | .exchanged d _ row :: earlier, id => if row.id = id then some d else chainStart earlier id
  | .refreshed _ old _ row :: earlier, id =>
      if row.id = id then chainStart earlier old.id else chainStart earlier id
  | .approved .. :: earlier, id => chainStart earlier id
  | .accepted .. :: earlier, id => chainStart earlier id
  | .executed .. :: earlier, id => chainStart earlier id

/-- The token row an event issues. -/
def Event.issues : Event → Option Nat
  | .exchanged _ _ row => some row.id
  | .refreshed _ _ _ row => some row.id
  | _ => none

theorem chainStart_other {e : Event} {id : Nat} (other : e.issues ≠ some id) (h : List Event) :
    chainStart (e :: h) id = chainStart h id := by
  cases e with
  | exchanged d a row =>
      rw [chainStart, if_neg]
      intro same
      exact other (congrArg some same)
  | refreshed x old a row =>
      rw [chainStart, if_neg]
      intro same
      exact other (congrArg some same)
  | approved | accepted | executed => rfl

theorem chainStart_mem {h : List Event} {id : Nat} {d : Redemption} (start : chainStart h id = some d) :
    ∃ a row, Event.exchanged d a row ∈ h := by
  induction h generalizing id with
  | nil => cases start
  | cons e h ih =>
      have later : ∀ {id}, chainStart h id = some d → ∃ a row, Event.exchanged d a row ∈ e :: h := by
        intro id start
        obtain ⟨a, row, member⟩ := ih start
        exact ⟨a, row, List.mem_cons_of_mem _ member⟩
      cases e with
      | exchanged d' a row =>
          rw [chainStart] at start
          split at start
          · cases start
            exact ⟨a, row, List.mem_cons_self⟩
          · exact later start
      | refreshed x old a row =>
          rw [chainStart] at start
          split at start <;> exact later start
      | approved | accepted | executed => exact later start

namespace McpSystem

variable {rt : Runtime} {s s' : McpSystem}

@[simp] theorem set_db (r : Nat) (q : Request) : (s.set r q).db = s.db := rfl

@[simp] theorem set_locks (r : Nat) (q : Request) : (s.set r q).locks = s.locks := rfl

@[simp] theorem set_history (r : Nat) (q : Request) : (s.set r q).history = s.history := rfl

@[simp] theorem record_db (e : Event) : (s.record e).db = s.db := rfl

@[simp] theorem record_locks (e : Event) : (s.record e).locks = s.locks := rfl

@[simp] theorem record_requests (e : Event) : (s.record e).requests = s.requests := rfl

@[simp] theorem record_history (e : Event) : (s.record e).history = e :: s.history := rfl

@[simp] theorem release_db (r : Nat) : (s.release r).db = s.db := rfl

@[simp] theorem release_history (r : Nat) : (s.release r).history = s.history := rfl

/-! ## Rows, clients and events accumulate -/

/-- Token rows are still there, and those that were revoked still are. -/
def Kept (rows rows' : List OAuthToken) : Prop :=
  ∀ t ∈ rows, ∃ t' ∈ rows', t'.toTokenInsert = t.toTokenInsert ∧ (t.revokedAt ≠ none → t'.revokedAt ≠ none)

theorem Kept.of_subset {rows rows' : List OAuthToken} (sub : rows ⊆ rows') : Kept rows rows' :=
  fun t ht => ⟨t, sub ht, rfl, id⟩

theorem Kept.trans {rows rows' rows'' : List OAuthToken} (first : Kept rows rows') (second : Kept rows' rows'') :
    Kept rows rows'' := by
  intro t ht
  obtain ⟨t', member, same, revoked⟩ := first t ht
  obtain ⟨t'', member', same', revoked'⟩ := second t' member
  exact ⟨t'', member', same'.trans same, fun before => revoked' (revoked before)⟩

theorem Kept.updated (rows : List OAuthToken) {set : TokenMarks → TokenMarks} (wher : OAuthToken → Bool)
    (keeps : ∀ m, m.revokedAt ≠ none → (set m).revokedAt ≠ none) :
    Kept rows (rows.map (McpDb.updateToken set wher)) := by
  intro t ht
  refine ⟨_, List.mem_map_of_mem ht, McpDb.updateToken_insert _ _ _, fun revoked => ?_⟩
  unfold McpDb.updateToken
  split
  · exact keeps _ revoked
  · exact revoked

structure Grows (s s' : McpSystem) : Prop where
  clients : s.db.clients ⊆ s'.db.clients
  codes : ∀ c ∈ s.db.codes, ∃ c' ∈ s'.db.codes,
    c'.toCodeInsert = c.toCodeInsert ∧ (c.usedAt ≠ none → c'.usedAt ≠ none)
  tokens : Kept s.db.tokens s'.db.tokens
  history : s.history ⊆ s'.history
  chains : ∀ t ∈ s.db.tokens, chainStart s'.history t.id = chainStart s.history t.id

/-- A step that leaves the rows there are and records at most an event that issues
    no row. -/
theorem Grows.of_rows (clients : s.db.clients ⊆ s'.db.clients) (codes : s.db.codes ⊆ s'.db.codes)
    (tokens : Kept s.db.tokens s'.db.tokens)
    (history : s'.history = s.history ∨ ∃ e, e.issues = none ∧ s'.history = e :: s.history) : Grows s s' where
  clients := clients
  codes c hc := ⟨c, codes hc, rfl, id⟩
  tokens := tokens
  history := by
    cases history with
    | inl same => exact same ▸ List.Subset.refl _
    | inr more =>
        obtain ⟨e, -, more⟩ := more
        exact more ▸ List.subset_cons_self _ _
  chains t _ := by
    cases history with
    | inl same => rw [same]
    | inr more =>
        obtain ⟨e, quiet, more⟩ := more
        rw [more]
        exact chainStart_other (by simp [quiet]) _

theorem mem_updateCodes {db : McpDb} (usedAt : Int) (wher : AuthorizationCode → Bool) {c : AuthorizationCode}
    (member : c ∈ db.codes) :
    ∃ c' ∈ (db.updateCodes usedAt wher).codes, c'.toCodeInsert = c.toCodeInsert ∧
      (c.usedAt ≠ none ∨ wher c = true → c'.usedAt ≠ none) := by
  refine ⟨_, List.mem_map_of_mem member, ?_⟩
  split
  · exact ⟨rfl, fun _ => by simp⟩
  · rename_i unmatched
    exact ⟨rfl, fun used => used.resolve_right unmatched⟩

theorem effect_grows (effect : Effect rt s s') : Grows s s' := by
  have same : Kept s.db.tokens s.db.tokens := .of_subset (List.Subset.refl _)
  cases effect with
  | idle | moves | rollsBack | claimsCode | claimsToken =>
      exact .of_rows (List.Subset.refl _) (List.Subset.refl _) same (.inl rfl)
  | accepts | executes =>
      exact .of_rows (List.Subset.refl _) (List.Subset.refl _) same (.inr ⟨_, rfl, rfl⟩)
  | marks r q set wher _ _ _ keeps =>
      exact .of_rows (List.Subset.refl _) (List.Subset.refl _) (.updated _ wher keeps) (.inl rfl)
  | registers client db inserted =>
      obtain ⟨clients, codes, tokens⟩ := McpDb.insertClient_some inserted
      exact .of_rows (by simp [clients]) (by simp [codes]) (.of_subset (by simp [tokens])) (.inl rfl)
  | approves r user a code now db _ inserted =>
      obtain ⟨-, clients, codes, tokens⟩ := McpDb.insertCode_some inserted
      exact .of_rows (by simp [clients]) (by simp [codes]) (.of_subset (by simp [tokens])) (.inr ⟨_, rfl, rfl⟩)
  | exchanges r d usedAt drawn row db _ _ _ inserted =>
      obtain ⟨fresh, clients, codes, tokens⟩ := McpDb.insertToken_some inserted
      refine {
        clients := by simp [clients]
        codes := ?_
        tokens := .of_subset (by simp [tokens])
        history := List.subset_cons_self _ _
        chains := ?_ }
      · intro c hc
        obtain ⟨c', member, same, used⟩ := mem_updateCodes usedAt (fun c => c.codeHash = d.code.codeHash) hc
        exact ⟨c', by simpa [codes] using member, same, fun before => used (.inl before)⟩
      · intro t ht
        exact chainStart_other (e := .exchanged d _ row) (fun same => fresh t ht (Option.some.inj same).symm) _
  | refreshes r x old now drawn row db _ _ inserted =>
      obtain ⟨fresh, clients, codes, tokens⟩ := McpDb.insertToken_updated inserted
      have inserted : Kept s.db.tokens db.tokens :=
        tokens ▸ (Kept.updated _ _ (by simp)).trans (.of_subset (List.subset_append_left _ _))
      refine {
        clients := by simp [clients]
        codes := fun c hc => ⟨c, by simpa [codes] using hc, rfl, id⟩
        tokens := inserted.trans (.updated _ _ fun _ revoked => revoked)
        history := List.subset_cons_self _ _
        chains := ?_ }
      intro t ht
      exact chainStart_other (e := .refreshed x old _ row) (fun same => fresh t ht (Option.some.inj same).symm) _

/-! ## A transaction's row stays as it was claimed -/

def KeepsRow (s s' : McpSystem) : McpRow → Prop
  | .code codeHash => ∀ c ∈ s.db.codes, c.codeHash = codeHash → c ∈ s'.db.codes
  | .token id => ∀ t ∈ s.db.tokens, t.id = id → t ∈ s'.db.tokens

theorem KeepsRow.of_subset (codes : s.db.codes ⊆ s'.db.codes) (tokens : s.db.tokens ⊆ s'.db.tokens) (k : McpRow) :
    KeepsRow s s' k := by
  cases k with
  | code => exact fun c hc _ => codes hc
  | token => exact fun t ht _ => tokens ht

end McpSystem

/-- The row a request's transaction holds. -/
def Request.claims : Request → Option McpRow
  | .codeClaimed d _ => some (.code d.code.codeHash)
  | .tokenClaimed _ old _ => some (.token old.id)
  | _ => none

namespace McpSystem

variable {rt : Runtime} {s s' : McpSystem}

/-- Every claimed row is locked by the transaction that claimed it. -/
def Locked (s : McpSystem) : Prop :=
  ∀ r q k, s.requests r = some q → q.claims = some k → s.locks k = some r

theorem set_requests {r r' : Nat} {q q' : Request} (stands : (s.set r q).requests r' = some q') :
    (r' = r ∧ q' = q) ∨ (r' ≠ r ∧ s.requests r' = some q') := by
  cases Decidable.em (r' = r) with
  | inl same =>
      subst same
      simp only [set, Function.update_self, Option.some.injEq] at stands
      exact .inl ⟨rfl, stands.symm⟩
  | inr other =>
      simp only [set, Function.update_of_ne other] at stands
      exact .inr ⟨other, stands⟩

/-- A step by another leaves the lock of a transaction and the row under it. -/
theorem effect_holds (locked : s.Locked) (effect : Effect rt s s') {r : Nat} {q : Request} {k : McpRow}
    (stands : s.requests r = some q) (stays : s'.requests r = some q) (claims : q.claims = some k) :
    s'.locks k = some r ∧ KeepsRow s s' k := by
  have held := locked r q k stands claims
  have same := KeepsRow.of_subset (s := s) (List.Subset.refl _) (List.Subset.refl _) k
  cases effect with
  | idle | moves | accepts | executes => exact ⟨held, same⟩
  | registers client db inserted =>
      obtain ⟨-, codes, tokens⟩ := McpDb.insertClient_some inserted
      exact ⟨held, .of_subset (by simp [codes]) (by simp [tokens]) k⟩
  | approves r' user a code now db _ inserted =>
      obtain ⟨-, -, codes, tokens⟩ := McpDb.insertCode_some inserted
      exact ⟨held, .of_subset (by simp [codes]) (by simp [tokens]) k⟩
  | claimsCode _ _ _ _ _ _ _ _ free | claimsToken _ _ _ _ _ _ _ free =>
      exact ⟨RowLocks.acquire_keeps free held, same⟩
  | rollsBack r' e =>
      cases set_requests stays with
      | inl acts =>
          rw [acts.2] at claims
          cases claims
      | inr other => exact ⟨RowLocks.release_keeps other.1 held, same⟩
  | marks r' q' set wher _ free =>
      refine ⟨held, ?_⟩
      cases k with
      | code => exact fun c hc _ => hc
      | token id =>
          intro t ht isId
          have unmatched : wher t = false := by
            by_contra matched
            have := free t ht (by simpa using matched)
            rw [isId, held] at this
            cases this
          refine List.mem_map.mpr ⟨t, ht, ?_⟩
          rw [McpDb.updateToken, unmatched, if_neg Bool.false_ne_true]
  | exchanges r' d usedAt drawn row db owner _ _ inserted =>
      obtain ⟨-, -, codes, tokens⟩ := McpDb.insertToken_some inserted
      cases set_requests stays with
      | inl acts =>
          rw [acts.2] at claims
          cases claims
      | inr other =>
          refine ⟨RowLocks.release_keeps other.1 held, ?_⟩
          cases k with
          | token => exact fun t ht _ => by simp [tokens, ht]
          | code codeHash =>
              intro c hc isHash
              have unmatched : c.codeHash ≠ d.code.codeHash := by
                intro matched
                have := locked r' _ _ owner rfl
                rw [← matched, isHash, held] at this
                exact other.1 (Option.some.inj this)
              refine codes ▸ List.mem_map.mpr ⟨c, hc, if_neg ?_⟩
              simpa using unmatched
  | refreshes r' x old now drawn row db owner _ inserted =>
      obtain ⟨-, -, codes, tokens⟩ := McpDb.insertToken_updated inserted
      cases set_requests stays with
      | inl acts =>
          rw [acts.2] at claims
          cases claims
      | inr other =>
          refine ⟨RowLocks.release_keeps other.1 held, ?_⟩
          cases k with
          | code => exact fun c hc _ => by simpa [codes] using hc
          | token id =>
              intro t ht isId
              have unmatched : decide (t.id = old.id) = false := by
                refine decide_eq_false fun matched => ?_
                have := locked r' _ _ owner rfl
                rw [← matched, isId, held] at this
                exact other.1 (Option.some.inj this)
              have unchanged : ∀ set, McpDb.updateToken set (fun t => t.id = old.id) t = t := by
                intro set
                rw [McpDb.updateToken, unmatched, if_neg Bool.false_ne_true]
              refine List.mem_map.mpr ⟨t, ?_, unchanged _⟩
              rw [tokens]
              exact List.mem_append_left _ (List.mem_map.mpr ⟨t, ht, unchanged _⟩)

/-! ## The invariant -/

variable (rt : Runtime)

/-- A user approved the code, for a registered client and supported scopes. -/
structure Approved (s : McpSystem) (c : CodeInsert) (code : String) : Prop where
  event : .approved c.subject code c ∈ s.history
  hash : c.codeHash = rt.hashToken code
  client : ∃ client ∈ s.db.clients, client.clientId = c.clientId
  scope : ∃ scope, parseScopes scope = .ok c.scope

/-- The exchange presents the code, its client and its redirect URI before the
    code expires. -/
structure Matched (d : Redemption) : Prop where
  hash : d.code.codeHash = rt.hashToken d.exchange.code
  clientId : d.code.clientId = d.exchange.clientId
  redirectUri : d.code.redirectUri = d.exchange.redirectUri
  expiry : d.now < d.code.expiresAt

/-- The chain of a row starts with this redemption, and the row carries what its
    code carries. -/
structure Granted (s : McpSystem) (t : TokenInsert) (d : Redemption) : Prop where
  start : chainStart s.history t.id = some d
  matched : Matched rt d
  checked : d.exchange.check rt d.code = .ok ()
  approved : ∃ code, Approved rt s d.code code
  clientId : t.clientId = d.code.clientId
  subject : t.subject = d.code.subject
  scope : t.scope = d.code.scope
  resource : t.resource = d.code.resource

/-- What is known of a request where it stands. -/
def StandsOk (s : McpSystem) (r : Nat) : Request → Prop
  | .approving _ a => a.client ∈ s.db.clients ∧ ∃ scope, parseScopes scope = .ok a.scope
  | .codeClaimed d _ => { toCodeInsert := d.code } ∈ s.db.codes ∧ Matched rt d
  | .tokenClaimed x old _ => (∃ t ∈ s.db.tokens, t.toTokenInsert = old ∧ t.revokedAt = none) ∧
      old.refreshTokenHash = rt.hashToken x.refreshToken ∧ old.clientId = x.clientId
  | .verified row => ∃ bearer resource now, .accepted r bearer row resource now ∈ s.history
  | .serving scopes => ∃ row bearer resource now, .accepted r bearer row resource now ∈ s.history ∧
      scopes = JsText.splitSpaces row.scope
  | _ => True

/-- A row was live and fit when a bearer token was accepted for it. -/
structure AcceptedOk (s : McpSystem) (bearer : String) (row : OAuthToken) (resource : String) (now : Int) : Prop where
  hash : row.accessTokenHash = rt.hashToken bearer
  live : row.revokedAt = none
  fit : BetterBullBoard.accepts row resource now = true
  member : ∃ t ∈ s.db.tokens, t.toTokenInsert = row.toTokenInsert

structure Sound (s : McpSystem) : Prop where
  locked : s.Locked
  clients : ∀ c ∈ s.db.clients, "authorization_code" ∈ c.grantTypes
  codes : ∀ c ∈ s.db.codes, ∃ code, Approved rt s c.toCodeInsert code
  tokens : ∀ t ∈ s.db.tokens, ∃ d, Granted rt s t.toTokenInsert d
  requests : ∀ r q, s.requests r = some q → StandsOk rt s r q
  accepted : ∀ r bearer row resource now, .accepted r bearer row resource now ∈ s.history →
    AcceptedOk rt s bearer row resource now

end McpSystem

end BetterBullBoard
