import BetterBullBoard.Mcp.Invariant

/-! # The invariant is kept

One lemma for each part of `Sound`, each a case analysis over the effects.
-/

namespace BetterBullBoard

namespace McpSystem

variable {rt : Runtime} {s s' : McpSystem}

/-! ## What growing keeps -/

theorem Approved.grows {c : CodeInsert} {code : String} (approved : Approved rt s c code) (grows : Grows s s') :
    Approved rt s' c code where
  event := grows.history approved.event
  hash := approved.hash
  client := by
    obtain ⟨client, member, id⟩ := approved.client
    exact ⟨client, grows.clients member, id⟩
  scope := approved.scope

theorem Granted.grows {t : TokenInsert} {d : Redemption} (granted : Granted rt s t d) (grows : Grows s s')
    (stored : ∃ row ∈ s.db.tokens, row.toTokenInsert = t) : Granted rt s' t d :=
  { granted with
    start := by
      obtain ⟨row, member, rfl⟩ := stored
      exact (grows.chains row member).trans granted.start
    approved := by
      obtain ⟨code, approved⟩ := granted.approved
      exact ⟨code, approved.grows grows⟩ }

theorem AcceptedOk.grows {bearer : String} {row : OAuthToken} {resource : String} {now : Int}
    (ok : AcceptedOk rt s bearer row resource now) (grows : Grows s s') : AcceptedOk rt s' bearer row resource now :=
  { ok with
    member := by
      obtain ⟨t, member, same⟩ := ok.member
      obtain ⟨t', member', same', -⟩ := grows.tokens t member
      exact ⟨t', member', same'.trans same⟩ }

theorem StandsOk.grows {r : Nat} {q : Request} (ok : StandsOk rt s r q) (grows : Grows s s')
    (held : ∀ k, q.claims = some k → KeepsRow s s' k) : StandsOk rt s' r q := by
  cases q with
  | approving user a => exact ⟨grows.clients ok.1, ok.2⟩
  | codeClaimed d usedAt => exact ⟨held _ rfl _ ok.1 rfl, ok.2⟩
  | tokenClaimed x old now =>
      obtain ⟨⟨t, member, rfl, live⟩, hash, client⟩ := ok
      exact ⟨⟨t, held _ rfl t member rfl, rfl, live⟩, hash, client⟩
  | verified row =>
      obtain ⟨bearer, resource, now, event⟩ := ok
      exact ⟨bearer, resource, now, grows.history event⟩
  | serving scopes =>
      obtain ⟨row, bearer, resource, now, event, rfl⟩ := ok
      exact ⟨row, bearer, resource, now, grows.history event, rfl⟩
  | exchanging | refreshing | revoking | done | failed => trivial

/-! ## One lemma for each part -/

/-- A request a step leaves where it is keeps its lock, and a request a step moves
    holds what it then claims. -/
theorem effect_locked (locked : s.Locked) (effect : Effect rt s s') : s'.Locked := by
  intro r q k stands claims
  have unmoved (stood : s.requests r = some q) : s'.locks k = some r :=
    (effect_holds locked effect stood stands claims).1
  cases effect with
  | idle | registers => exact unmoved stands
  | executes => exact unmoved stands
  | moves r' q' _ enters | marks r' q' _ _ _ _ enters =>
      cases set_requests stands with
      | inr other => exact unmoved other.2
      | inl acts =>
          rw [acts.2] at claims
          cases q' with
          | codeClaimed | tokenClaimed => exact enters.elim
          | _ => cases claims
  | approves | accepts | exchanges | refreshes | rollsBack =>
      cases set_requests stands with
      | inr other => exact unmoved other.2
      | inl acts =>
          rw [acts.2] at claims
          cases claims
  | claimsCode r' x usedAt now c | claimsToken r' x now t =>
      cases set_requests stands with
      | inr other => exact unmoved other.2
      | inl acts =>
          rw [acts.2] at claims
          cases claims
          rw [acts.1]
          exact RowLocks.acquire_self

theorem effect_clients (clients : ∀ c ∈ s.db.clients, "authorization_code" ∈ c.grantTypes) (effect : Effect rt s s') :
    ∀ c ∈ s'.db.clients, "authorization_code" ∈ c.grantTypes := by
  cases effect with
  | idle | moves | claimsCode | claimsToken | rollsBack | marks | accepts | executes => exact clients
  | registers client db inserted grants =>
      intro c hc
      simp only [(McpDb.insertClient_some inserted).1, List.mem_append, List.mem_singleton] at hc
      cases hc with
      | inl old => exact clients c old
      | inr new => exact new ▸ grants
  | approves _ _ _ _ _ _ _ inserted => simpa [(McpDb.insertCode_some inserted).2.1] using clients
  | exchanges _ _ _ _ _ _ _ _ _ inserted => simpa [(McpDb.insertToken_some inserted).2.1] using clients
  | refreshes _ _ _ _ _ _ _ _ _ inserted => simpa [(McpDb.insertToken_some inserted).2.1] using clients

theorem effect_codes (sound : Sound rt s) (effect : Effect rt s s') :
    ∀ c ∈ s'.db.codes, ∃ code, Approved rt s' c.toCodeInsert code := by
  have grows := effect_grows effect
  have before : ∀ c ∈ s.db.codes, ∃ code, Approved rt s' c.toCodeInsert code := by
    intro c hc
    obtain ⟨code, approved⟩ := sound.codes c hc
    exact ⟨code, approved.grows grows⟩
  cases effect with
  | idle | moves | claimsCode | claimsToken | rollsBack | marks | accepts | executes => exact before
  | registers client db inserted => simpa [(McpDb.insertClient_some inserted).2.1] using before
  | refreshes _ _ _ _ _ _ _ _ _ inserted => simpa [(McpDb.insertToken_some inserted).2.2.1] using before
  | exchanges _ d usedAt _ _ _ _ _ _ inserted =>
      intro c hc
      simp only [record_db, set_db, release_db, (McpDb.insertToken_some inserted).2.2.1] at hc
      obtain ⟨c', member, rfl⟩ := List.mem_map.mp hc
      split <;> exact before c' member
  | approves r user a code now db stands inserted =>
      obtain ⟨-, clients, codes, -⟩ := McpDb.insertCode_some inserted
      intro c hc
      simp only [record_db, set_db, codes, List.mem_append, List.mem_singleton] at hc
      cases hc with
      | inl old => exact before c old
      | inr new =>
          obtain ⟨member, scope⟩ := sound.requests r _ stands
          subst new
          exact ⟨code, {
            event := List.mem_cons_self
            hash := rfl
            client := ⟨a.client, grows.clients member, rfl⟩
            scope := scope }⟩

theorem effect_tokens (sound : Sound rt s) (effect : Effect rt s s') :
    ∀ t ∈ s'.db.tokens, ∃ d, Granted rt s' t.toTokenInsert d := by
  have grows := effect_grows effect
  have before : ∀ t ∈ s.db.tokens, ∃ d, Granted rt s' t.toTokenInsert d := by
    intro t ht
    obtain ⟨d, granted⟩ := sound.tokens t ht
    exact ⟨d, granted.grows grows ⟨t, ht, rfl⟩⟩
  have updated : ∀ set wher, ∀ t ∈ s.db.tokens.map (McpDb.updateToken set wher),
      ∃ d, Granted rt s' t.toTokenInsert d := by
    intro set wher t ht
    obtain ⟨t', member, rfl⟩ := List.mem_map.mp ht
    rw [McpDb.updateToken_insert]
    exact before t' member
  cases effect with
  | idle | moves | claimsCode | claimsToken | rollsBack | accepts | executes => exact before
  | registers client db inserted => simpa [(McpDb.insertClient_some inserted).2.2] using before
  | approves _ _ _ _ _ _ _ inserted => simpa [(McpDb.insertCode_some inserted).2.2.2] using before
  | marks r q set wher => exact updated set wher
  | exchanges r d usedAt drawn row db stands checked new inserted =>
      intro t ht
      simp only [record_db, set_db, release_db, (McpDb.insertToken_some inserted).2.2.2, List.mem_append,
        List.mem_singleton] at ht
      cases ht with
      | inl old => exact before t old
      | inr same =>
          obtain ⟨stored, matched⟩ := sound.requests r _ stands
          obtain ⟨code, approved⟩ := sound.codes _ stored
          subst same new
          exact ⟨d, {
            start := if_pos rfl
            matched := matched
            checked := checked
            approved := ⟨code, approved.grows grows⟩
            clientId := matched.clientId.symm
            subject := rfl
            scope := rfl
            resource := rfl }⟩
  | refreshes r x old now drawn row db stands new inserted =>
      obtain ⟨fresh, -, -, tokens⟩ := McpDb.insertToken_updated inserted
      intro t ht
      simp only [record_db, set_db, release_db] at ht
      obtain ⟨t', member, rfl⟩ := List.mem_map.mp ht
      rw [McpDb.updateToken_insert]
      rw [tokens, List.mem_append, List.mem_singleton] at member
      cases member with
      | inl stored => exact updated _ _ t' stored
      | inr same =>
          obtain ⟨⟨t₀, stored, isOld, -⟩, -, client⟩ := sound.requests r _ stands
          obtain ⟨d, granted⟩ := before t₀ stored
          have apart : row.id ≠ old.id := by
            intro equal
            exact fresh t₀ stored ((congrArg _ isOld).trans equal.symm)
          subst isOld same
          refine ⟨d, { granted with start := ?_, clientId := ?_, subject := ?_, scope := ?_, resource := ?_ }⟩
          · have later := granted.start
            rw [record_history, chainStart, if_neg apart] at later
            exact (if_pos rfl).trans later
          all_goals subst new
          · exact client.symm.trans granted.clientId
          · exact granted.subject
          · exact granted.scope
          · exact granted.resource

theorem effect_requests (sound : Sound rt s) (effect : Effect rt s s') :
    ∀ r q, s'.requests r = some q → StandsOk rt s' r q := by
  intro r q stands
  have grows := effect_grows effect
  have unmoved (stood : s.requests r = some q) : StandsOk rt s' r q :=
    (sound.requests r q stood).grows grows fun k claims =>
      (effect_holds sound.locked effect stood stands claims).2
  cases effect with
  | idle | registers => exact unmoved stands
  | executes => exact unmoved stands
  | moves r' q' _ enters | marks r' q' _ _ _ _ enters =>
      cases set_requests stands with
      | inr other => exact unmoved other.2
      | inl acts =>
          obtain ⟨rfl, rfl⟩ := acts
          cases q with
          | approving => exact enters
          | codeClaimed | tokenClaimed | verified => exact enters.elim
          | serving scopes =>
              obtain ⟨row, stood, rfl⟩ := enters
              obtain ⟨bearer, resource, now, event⟩ := sound.requests r _ stood
              exact ⟨row, bearer, resource, now, event, rfl⟩
          | exchanging | refreshing | revoking | done | failed => trivial
  | approves | exchanges | refreshes | rollsBack =>
      cases set_requests stands with
      | inr other => exact unmoved other.2
      | inl acts =>
          obtain ⟨-, rfl⟩ := acts
          trivial
  | claimsCode r' x usedAt now c _ member redeems =>
      cases set_requests stands with
      | inr other => exact unmoved other.2
      | inl acts =>
          obtain ⟨rfl, rfl⟩ := acts
          simp only [Exchange.redeems, Bool.and_eq_true, decide_eq_true_eq] at redeems
          obtain ⟨⟨⟨⟨hash, client⟩, uri⟩, unused⟩, expiry⟩ := redeems
          obtain ⟨c, usedAt⟩ := c
          subst unused
          exact ⟨member, hash, client, uri, expiry⟩
  | claimsToken r' x now t _ member rotates =>
      cases set_requests stands with
      | inr other => exact unmoved other.2
      | inl acts =>
          obtain ⟨rfl, rfl⟩ := acts
          simp only [Refresh.rotates, Bool.and_eq_true, decide_eq_true_eq] at rotates
          obtain ⟨⟨⟨hash, client⟩, live⟩, -⟩ := rotates
          exact ⟨⟨t, member, rfl, live⟩, hash, client⟩
  | accepts r' bearer t resource now =>
      cases set_requests stands with
      | inr other => exact unmoved other.2
      | inl acts =>
          obtain ⟨rfl, rfl⟩ := acts
          exact ⟨bearer, resource, now, List.mem_cons_self⟩

theorem effect_accepted (sound : Sound rt s) (effect : Effect rt s s') :
    ∀ r bearer row resource now, .accepted r bearer row resource now ∈ s'.history →
      AcceptedOk rt s' bearer row resource now := by
  have grows := effect_grows effect
  have before : ∀ r bearer row resource now, .accepted r bearer row resource now ∈ s.history →
      AcceptedOk rt s' bearer row resource now :=
    fun r bearer row resource now event => (sound.accepted r bearer row resource now event).grows grows
  have recorded {e : Event} (quiet : ∀ r bearer row resource now, .accepted r bearer row resource now ≠ e)
      (more : s'.history = e :: s.history) : ∀ r bearer row resource now,
      .accepted r bearer row resource now ∈ s'.history → AcceptedOk rt s' bearer row resource now := by
    intro r bearer row resource now event
    rw [more] at event
    exact before _ _ _ _ _ ((List.mem_cons.mp event).resolve_left (quiet _ _ _ _ _))
  cases effect with
  | idle | moves | registers | claimsCode | claimsToken | rollsBack | marks => exact before
  | approves | exchanges | refreshes | executes => exact recorded (by intros; simp) rfl
  | accepts r' bearer' t resource' now' _ member hash live fit =>
      intro r bearer row resource now event
      cases List.mem_cons.mp event with
      | inr old => exact before _ _ _ _ _ old
      | inl new =>
          cases new
          exact { hash, live, fit, member := ⟨t, member, rfl⟩ }

/-! ## Every run -/

theorem sound_step (sound : Sound rt s) {a : McpAction} (enabled : s.step rt a = some s') : Sound rt s' where
  locked := effect_locked sound.locked (step_effect enabled)
  clients := effect_clients sound.clients (step_effect enabled)
  codes := effect_codes sound (step_effect enabled)
  tokens := effect_tokens sound (step_effect enabled)
  requests := effect_requests sound (step_effect enabled)
  accepted := effect_accepted sound (step_effect enabled)

/-- No client, no code, no token, no request. -/
def init : McpSystem := {}

theorem sound_init : Sound rt init where
  locked := by intro r q k stands; cases stands
  clients := by intro c hc; cases hc
  codes := by intro c hc; cases hc
  tokens := by intro t ht; cases ht
  requests := by intro r q stands; cases stands
  accepted := by intro r bearer row resource now event; cases event

end McpSystem

end BetterBullBoard
