import BetterBullBoard.Lib.UniqueIndex
import BetterBullBoard.Mcp.Consent

/-! # Codes and refresh tokens are redeemed once

A transaction holds the row it claimed, which no other request can use up or
revoke until it ends, so a code or a refresh token is redeemed by one request at
most. Every redemption of a refresh token revokes the row it replaces, which
leaves one live row for each code.
-/

namespace BetterBullBoard

/-- The event redeems a code with this hash. -/
def Event.redeemsCode (rt : Runtime) (codeHash : String) : Event → Bool
  | .exchanged d _ _ => rt.hashToken d.exchange.code = codeHash
  | _ => false

/-- The event redeems a refresh token with this hash. -/
def Event.redeemsRefresh (rt : Runtime) (refreshTokenHash : String) : Event → Bool
  | .refreshed x _ _ _ => rt.hashToken x.refreshToken = refreshTokenHash
  | _ => false

/-- The event accepts the access token or the refresh token of this row. -/
def Event.acceptsTokenOf (rt : Runtime) (t : TokenInsert) : Event → Bool
  | .accepted _ bearer _ _ _ => rt.hashToken bearer = t.accessTokenHash
  | .refreshed x _ _ _ => rt.hashToken x.refreshToken = t.refreshTokenHash
  | _ => false

/-- The steps of an exchange or a refresh. -/
def McpAction.grants (r : Nat) : McpAction → Bool
  | .token r' _ | .claimCode r' _ _ | .exchange r' _ | .claimToken r' _ | .refresh r' _ | .abort r' => r' = r
  | _ => false

/-- The code at the start of an unrevoked row's chain. -/
def liveCode (h : List Event) (t : OAuthToken) : Option String :=
  if t.revokedAt = none then (chainStart h t.id).map (·.code.codeHash) else none

/-- What holds of at most one event still does after another, unless there is one
    already. -/
theorem countP_cons_le {α : Type} {p : α → Bool} {e : α} {h : List α} (once : h.countP p ≤ 1)
    (fresh : p e = true → ∀ e' ∈ h, p e' = false) : (e :: h).countP p ≤ 1 := by
  rw [List.countP_cons]
  split
  · rename_i hits
    have : h.countP p = 0 := List.countP_eq_zero.mpr fun e' he' => by simp [fresh hits e' he']
    omega
  · omega

namespace McpSystem

variable (rt : Runtime) {s s' : McpSystem}

structure Single (s : McpSystem) : Prop where
  used : ∀ d a row, .exchanged d a row ∈ s.history → ∃ c ∈ s.db.codes,
    c.toCodeInsert = d.code ∧ c.usedAt ≠ none ∧ d.code.codeHash = rt.hashToken d.exchange.code
  revoked : ∀ x old a row, .refreshed x old a row ∈ s.history → ∃ t ∈ s.db.tokens,
    t.toTokenInsert = old ∧ t.revokedAt ≠ none ∧ old.refreshTokenHash = rt.hashToken x.refreshToken
  codeOnce : ∀ codeHash, s.history.countP (Event.redeemsCode rt codeHash) ≤ 1
  refreshOnce : ∀ refreshTokenHash, s.history.countP (Event.redeemsRefresh rt refreshTokenHash) ≤ 1
  oneLive : UniqueIndex.Unique (liveCode s.history) s.db.tokens

variable {rt}

/-! ## One lemma for each part -/

theorem effect_used (sound : Sound rt s) (single : Single rt s) (effect : Effect rt s s') :
    ∀ d a row, .exchanged d a row ∈ s'.history → ∃ c ∈ s'.db.codes,
      c.toCodeInsert = d.code ∧ c.usedAt ≠ none ∧ d.code.codeHash = rt.hashToken d.exchange.code := by
  have grows := effect_grows effect
  have before : ∀ d a row, .exchanged d a row ∈ s.history → ∃ c ∈ s'.db.codes,
      c.toCodeInsert = d.code ∧ c.usedAt ≠ none ∧ d.code.codeHash = rt.hashToken d.exchange.code := by
    intro d a row event
    obtain ⟨c, hc, same, used, presented⟩ := single.used d a row event
    obtain ⟨c', hc', same', used'⟩ := grows.codes c hc
    exact ⟨c', hc', same'.trans same, used' used, presented⟩
  cases effect with
  | idle | moves | registers | claimsCode | claimsToken | rollsBack | marks => exact before
  | approves | refreshes | accepts | executes =>
      intro d a row event
      exact before d a row ((List.mem_cons.mp event).resolve_left (by simp))
  | exchanges r d usedAt drawn row db stands _ _ inserted =>
      obtain ⟨stored, matched⟩ := sound.requests r _ stands
      obtain ⟨c, hc, same, used⟩ := mem_updateCodes usedAt (fun c => c.codeHash = d.code.codeHash) stored
      rw [← (McpDb.insertToken_some inserted).2.2.1] at hc
      intro d' a row' event
      cases List.mem_cons.mp event with
      | inr old => exact before d' a row' old
      | inl new =>
          cases new
          exact ⟨c, hc, same, used (.inr (by simp)), matched.hash⟩

theorem effect_revoked (sound : Sound rt s) (single : Single rt s) (effect : Effect rt s s') :
    ∀ x old a row, .refreshed x old a row ∈ s'.history → ∃ t ∈ s'.db.tokens,
      t.toTokenInsert = old ∧ t.revokedAt ≠ none ∧ old.refreshTokenHash = rt.hashToken x.refreshToken := by
  have grows := effect_grows effect
  have before : ∀ x old a row, .refreshed x old a row ∈ s.history → ∃ t ∈ s'.db.tokens,
      t.toTokenInsert = old ∧ t.revokedAt ≠ none ∧ old.refreshTokenHash = rt.hashToken x.refreshToken := by
    intro x old a row event
    obtain ⟨t, ht, same, revoked, presented⟩ := single.revoked x old a row event
    obtain ⟨t', ht', same', revoked'⟩ := grows.tokens t ht
    exact ⟨t', ht', same'.trans same, revoked' revoked, presented⟩
  cases effect with
  | idle | moves | registers | claimsCode | claimsToken | rollsBack | marks => exact before
  | approves | exchanges | accepts | executes =>
      intro x old a row event
      exact before x old a row ((List.mem_cons.mp event).resolve_left (by simp))
  | refreshes r x old now drawn row db stands _ inserted =>
      obtain ⟨⟨t, stored, rfl, -⟩, presented, -⟩ := sound.requests r _ stands
      have tokens := McpDb.refreshed_rows ⟨t, stored, rfl⟩ inserted
      intro x' old' a row' event
      cases List.mem_cons.mp event with
      | inr earlier => exact before x' old' a row' earlier
      | inl new =>
          cases new
          refine ⟨McpDb.rotated t.id now row.id t, ?_, McpDb.updateToken_insert _ _ _, ?_, presented⟩
          · simp only [record_db, set_db, release_db, tokens]
            exact List.mem_append_left _ (List.mem_map_of_mem stored)
          · simp [McpDb.rotated, McpDb.updateToken]

/-- A claimed code has not been redeemed. -/
theorem claimed_unused (sound : Sound rt s) (single : Single rt s) {r : Nat} {d : Redemption} {usedAt : Int}
    (stands : s.requests r = some (.codeClaimed d usedAt)) {d' : Redemption} {a : String} {row : TokenInsert}
    (event : .exchanged d' a row ∈ s.history) : d'.code.codeHash ≠ d.code.codeHash := by
  intro equal
  obtain ⟨stored, -⟩ := sound.requests r _ stands
  obtain ⟨c, hc, same, used, -⟩ := single.used d' a row event
  have := List.inj_on_of_nodup_map s.db.codeHashes hc stored ((congrArg _ same).trans equal)
  rw [this] at used
  exact used rfl

/-- A claimed refresh token has not been redeemed. -/
theorem claimed_unrotated (sound : Sound rt s) (single : Single rt s) {r : Nat} {x : Refresh} {old : TokenInsert}
    {now : Int} (stands : s.requests r = some (.tokenClaimed x old now)) {x' : Refresh} {old' row : TokenInsert}
    {a : String} (event : .refreshed x' old' a row ∈ s.history) : old'.refreshTokenHash ≠ old.refreshTokenHash := by
  intro equal
  obtain ⟨⟨t, stored, rfl, live⟩, -⟩ := sound.requests r _ stands
  obtain ⟨t', ht', rfl, revoked, -⟩ := single.revoked x' old' a row event
  have := List.inj_on_of_nodup_map s.db.refreshTokenHashes ht' stored equal
  exact revoked (this ▸ live)

theorem effect_codeOnce (sound : Sound rt s) (single : Single rt s) (effect : Effect rt s s') (codeHash : String) :
    s'.history.countP (Event.redeemsCode rt codeHash) ≤ 1 := by
  have before := single.codeOnce codeHash
  cases effect with
  | idle | moves | registers | claimsCode | claimsToken | rollsBack | marks => exact before
  | approves | refreshes | accepts | executes => exact countP_cons_le before nofun
  | exchanges r d usedAt drawn row db stands =>
      refine countP_cons_le before fun presents e event => ?_
      cases e with
      | exchanged d' a row' =>
          refine decide_eq_false fun again => ?_
          obtain ⟨-, -, -, -, presented⟩ := single.used d' a row' event
          obtain ⟨-, matched⟩ := sound.requests r _ stands
          apply claimed_unused sound single stands event
          rw [presented, matched.hash, again, of_decide_eq_true presents]
      | approved | refreshed | accepted | executed => rfl

theorem effect_refreshOnce (sound : Sound rt s) (single : Single rt s) (effect : Effect rt s s')
    (refreshTokenHash : String) : s'.history.countP (Event.redeemsRefresh rt refreshTokenHash) ≤ 1 := by
  have before := single.refreshOnce refreshTokenHash
  cases effect with
  | idle | moves | registers | claimsCode | claimsToken | rollsBack | marks => exact before
  | approves | exchanges | accepts | executes => exact countP_cons_le before nofun
  | refreshes r x old now drawn row db stands =>
      refine countP_cons_le before fun presents e event => ?_
      cases e with
      | refreshed x' old' a row' =>
          refine decide_eq_false fun again => ?_
          obtain ⟨-, -, -, -, presented⟩ := single.revoked x' old' a row' event
          obtain ⟨-, presented', -⟩ := sound.requests r _ stands
          apply claimed_unrotated sound single stands event
          rw [presented, presented', again, of_decide_eq_true presents]
      | approved | exchanged | accepted | executed => rfl

/-! ## One live row -/

/-- An update leaves a row under its code or revokes it, as far as the history goes
    on reading its chain. -/
theorem liveCode_updated (grows : Grows s s') {set : TokenMarks → TokenMarks} {wher : OAuthToken → Bool}
    (keeps : ∀ m, m.revokedAt ≠ none → (set m).revokedAt ≠ none) {t : OAuthToken} (ht : t ∈ s.db.tokens) :
    liveCode s'.history (McpDb.updateToken set wher t) = none ∨
      liveCode s'.history (McpDb.updateToken set wher t) = liveCode s.history t := by
  unfold liveCode
  rw [McpDb.updateToken_insert, grows.chains t ht]
  split
  · rename_i live
    have before : t.revokedAt = none := by
      by_contra revoked
      unfold McpDb.updateToken at live
      split at live
      · exact keeps _ revoked live
      · exact revoked live
    exact .inr (if_pos before).symm
  · exact .inl rfl

theorem effect_oneLive (sound : Sound rt s) (single : Single rt s) (effect : Effect rt s s') :
    UniqueIndex.Unique (liveCode s'.history) s'.db.tokens := by
  have grows := effect_grows effect
  have same : UniqueIndex.Unique (liveCode s'.history) s.db.tokens := by
    simpa using single.oneLive.map_of (f := id) fun t ht =>
      .inr (by simp only [liveCode, id, grows.chains t ht])
  cases effect with
  | idle | moves | claimsCode | claimsToken | rollsBack | accepts | executes => exact same
  | registers client db inserted => simpa only [(McpDb.insertClient_some inserted).2.2] using same
  | approves _ _ _ _ _ _ _ inserted => simpa only [record_db, set_db, (McpDb.insertCode_some inserted).2.2.2] using same
  | marks r q set wher _ _ _ keeps => exact single.oneLive.map_of fun t ht => liveCode_updated grows keeps ht
  | exchanges r d usedAt drawn row db stands _ _ inserted =>
      simp only [record_db, set_db, release_db, (McpDb.insertToken_some inserted).2.2.2]
      refine same.append_one fun t ht clash => ?_
      have new : liveCode (.exchanged d drawn.accessToken row :: s.history) { toTokenInsert := row } =
          some d.code.codeHash := by simp [liveCode, chainStart]
      have read := clash.2.trans new
      unfold liveCode at read
      split at read
      · rw [grows.chains t ht] at read
        obtain ⟨d', start, equal⟩ := Option.map_eq_some_iff.mp read
        obtain ⟨a, row', event⟩ := chainStart_mem start
        exact claimed_unused sound single stands event equal
      · cases read
  | refreshes r x old now drawn row db stands _ inserted =>
      obtain ⟨⟨old, stored, rfl, live⟩, -, -⟩ := sound.requests r _ stands
      simp only [record_db, set_db, release_db, McpDb.refreshed_rows ⟨old, stored, rfl⟩ inserted]
      have updated : ∀ t ∈ s.db.tokens,
          liveCode (.refreshed x old.toTokenInsert drawn.accessToken row :: s.history)
              (McpDb.rotated old.id now row.id t) = none ∨
            liveCode (.refreshed x old.toTokenInsert drawn.accessToken row :: s.history)
              (McpDb.rotated old.id now row.id t) = liveCode s.history t :=
        fun t ht => liveCode_updated grows (by simp) ht
      refine (single.oneLive.map_of updated).append_one fun t ht clash => ?_
      obtain ⟨t, member, rfl⟩ := List.mem_map.mp ht
      have keyed := (updated t member).resolve_left (Option.isSome_iff_ne_none.mp clash.1)
      -- the new row goes on with the chain of the row it replaces
      have new : liveCode (.refreshed x old.toTokenInsert drawn.accessToken row :: s.history)
          { toTokenInsert := row } = liveCode s.history old := by simp [liveCode, chainStart, live]
      have equal : t = old := single.oneLive.eq_of_clash member stored
        ⟨keyed ▸ clash.1, keyed.symm.trans (clash.2.trans new)⟩
      subst equal
      simpa [liveCode, McpDb.rotated, McpDb.updateToken] using clash.1

theorem single_step (sound : Sound rt s) (single : Single rt s) {a : McpAction} (enabled : s.step rt a = some s') :
    Single rt s' where
  used := effect_used sound single (step_effect enabled)
  revoked := effect_revoked sound single (step_effect enabled)
  codeOnce := effect_codeOnce sound single (step_effect enabled)
  refreshOnce := effect_refreshOnce sound single (step_effect enabled)
  oneLive := effect_oneLive sound single (step_effect enabled)

theorem single_init : Single rt init where
  used := by intro d a row event; cases event
  revoked := by intro x old a row event; cases event
  codeOnce _ := Nat.zero_le _
  refreshOnce _ := Nat.zero_le _
  oneLive := List.Pairwise.nil

/-! ## Failures and revocations -/

/-- An exchange or a refresh that changes a table is done with it. -/
theorem grant_step {a : McpAction} {r : Nat} (enabled : s.step rt a = some s') (grants : a.grants r = true) :
    s'.db = s.db ∨ s'.requests r = some .done := by
  cases a with
  | token r' form =>
      simp only [step] at enabled
      split at enabled <;> cases enabled
      unfold token
      split <;> split <;> first | exact .inl rfl | (split <;> exact .inl rfl)
  | claimCode r' usedAt now =>
      simp only [step] at enabled
      split at enabled
      · unfold claimCode at enabled
        split at enabled
        · cases enabled
          exact .inl rfl
        · split at enabled <;> cases enabled
          exact .inl rfl
      · cases enabled
  | claimToken r' now =>
      simp only [step] at enabled
      split at enabled
      · unfold claimToken at enabled
        split at enabled
        · cases enabled
          exact .inl rfl
        · split at enabled <;> cases enabled
          exact .inl rfl
      · cases enabled
  | abort r' =>
      simp only [step] at enabled
      split at enabled <;> cases enabled
      exact .inl rfl
  | exchange r' drawn =>
      obtain rfl := of_decide_eq_true grants
      simp only [step] at enabled
      split at enabled <;> cases enabled
      unfold exchange
      dsimp only
      split
      · exact .inl rfl
      · split
        · exact .inl rfl
        · exact .inr (Function.update_self ..)
  | refresh r' drawn =>
      obtain rfl := of_decide_eq_true grants
      simp only [step] at enabled
      split at enabled <;> cases enabled
      unfold refresh
      dsimp only
      split
      · exact .inl rfl
      · exact .inr (Function.update_self ..)
  | register | approve | createCode | revoke | revokeRefresh | mcp | touch | callTool | close => cases grants

theorem set_ended {r r' : Nat} {q : Request} (active : s.Open r') (ended : s.requests r = some .done) :
    (s.set r' q).requests r = some .done := by
  have other : r ≠ r' := by
    intro same
    exact active.1 (same ▸ ended)
  exact (Function.update_of_ne other ..).trans ended

/-- A request that is done takes no more steps. -/
theorem effect_ended (effect : Effect rt s s') {r : Nat} (ended : s.requests r = some .done) :
    s'.requests r = some .done := by
  cases effect with
  | idle | registers => exact ended
  | executes => exact ended
  | moves _ _ active | claimsCode _ _ _ _ _ active | claimsToken _ _ _ _ active | rollsBack _ _ active
  | marks _ _ _ _ active => exact set_ended (s := { s with db := _, locks := _ }) active ended
  | approves _ _ _ _ _ _ stands | exchanges _ _ _ _ _ _ stands | refreshes _ _ _ _ _ _ _ stands
  | accepts _ _ _ _ _ stands =>
      exact set_ended (s := { s with db := _, locks := _ }) (by simp [Open, stands]) ended

/-- Neither token of a revoked row is accepted. -/
theorem effect_refuses (sound : Sound rt s) (effect : Effect rt s s') {e : Event}
    (records : s'.history = e :: s.history) {t : OAuthToken} (ht : t ∈ s.db.tokens) (revoked : t.revokedAt ≠ none) :
    e.acceptsTokenOf rt t.toTokenInsert = false := by
  have longer : s.history ≠ e :: s.history := fun same => by simpa using congrArg List.length same
  cases effect with
  | idle | moves | registers | claimsCode | claimsToken | rollsBack | marks => exact absurd records longer
  | approves | exchanges | executes =>
      cases (List.cons.inj records).1
      rfl
  | accepts r bearer row resource now _ member hash live =>
      cases (List.cons.inj records).1
      refine decide_eq_false fun same => revoked ?_
      have := List.inj_on_of_nodup_map s.db.accessTokenHashes member ht (hash.trans same)
      exact this ▸ live
  | refreshes r x old now drawn row db stands =>
      cases (List.cons.inj records).1
      obtain ⟨⟨t', stored, rfl, live⟩, hash, -⟩ := sound.requests r _ stands
      refine decide_eq_false fun same => revoked ?_
      have := List.inj_on_of_nodup_map s.db.refreshTokenHashes stored ht (hash.trans same)
      exact this ▸ live

/-! ## Every run -/

variable (rt) in
structure RedeemedOnce (ts : List (Machine.Transition McpSystem McpAction)) (s : McpSystem) : Prop where
  code : ∀ code, s.history.countP (Event.redeemsCode rt (rt.hashToken code)) ≤ 1
  refreshToken : ∀ refreshToken, s.history.countP (Event.redeemsRefresh rt (rt.hashToken refreshToken)) ≤ 1
  oneLive : ∀ t ∈ s.db.tokens, ∀ t' ∈ s.db.tokens, ∀ d d',
    chainStart s.history t.id = some d → chainStart s.history t'.id = some d' →
      d.code.codeHash = d'.code.codeHash → t.revokedAt = none → t'.revokedAt = none → t = t'
  failed : ∀ r e, s.requests r = some (.failed e) → ∀ x ∈ ts, x.act.grants r = true → x.post.db = x.pre.db
  revoked : ∀ before after u, ts = before ++ after → Machine.Run (step rt) init before u →
    Machine.Run (step rt) u after s → ∀ t ∈ u.db.tokens, t.revokedAt ≠ none → ∀ x ∈ after, ∀ e,
      x.post.history = e :: x.pre.history → e.acceptsTokenOf rt t.toTokenInsert = false

theorem redeemed_once {ts : List (Machine.Transition McpSystem McpAction)} {s : McpSystem}
    (run : Machine.Run (step rt) init ts s) : RedeemedOnce rt ts s := by
  have keep : ∀ s a s', Sound rt s ∧ Single rt s → step rt s a = some s' → Sound rt s' ∧ Single rt s' :=
    fun s a s' holds enabled => ⟨sound_step holds.1 enabled, single_step holds.1 holds.2 enabled⟩
  obtain ⟨-, single⟩ := run.invariant keep ⟨sound_init, single_init⟩
  refine {
    code := fun _ => single.codeOnce _
    refreshToken := fun _ => single.refreshOnce _
    oneLive := ?_
    failed := ?_
    revoked := ?_ }
  · intro t ht t' ht' d d' start start' code live live'
    exact single.oneLive.eq_of_clash ht ht' (by simp [UniqueIndex.Clash, liveCode, start, start', live, live', code])
  · intro r e failed x hx grants
    cases grant_step (run.enabled x hx) grants with
    | inl same => exact same
    | inr done =>
        obtain ⟨us, rest⟩ := run.after hx
        have := rest.invariant (I := fun s => s.requests r = some .done)
          (fun s a s' ended enabled => effect_ended (step_effect enabled) ended) done
        rw [this] at failed
        cases failed
  · intro before after u _ first second t ht revoked x hx e records
    have holds := first.invariant keep ⟨sound_init, single_init⟩
    -- the row is still stored and revoked where the transition is taken
    obtain ⟨⟨sound, t', ht', same, still⟩, enabled⟩ := second.invariant_pre
      (I := fun s => Sound rt s ∧ ∃ t' ∈ s.db.tokens, t'.toTokenInsert = t.toTokenInsert ∧ t'.revokedAt ≠ none)
      (by
        intro s a s' kept enabled
        obtain ⟨sound, t', ht', same, revoked⟩ := kept
        obtain ⟨t'', ht'', same', revoked'⟩ := (effect_grows (step_effect enabled)).tokens t' ht'
        exact ⟨sound_step sound enabled, t'', ht'', same'.trans same, revoked' revoked⟩)
      ⟨holds.1, t, ht, rfl, revoked⟩ x hx
    exact same ▸ effect_refuses sound (step_effect enabled) records ht' still

/-- A code is redeemed, and again in vain; the token is refreshed and the new one
    revoked. -/
def rotatingActs : List McpAction :=
  grantedActs (.object [("redirect_uris", .array [.string "https://client.example/callback"])]) ++
    [.token 2 codeForm, .claimCode 2 2000 2000, .token 3 refreshForm, .claimToken 3 3000,
      .refresh 3 ⟨"access-2", "refresh-2", 2, 3000, 3000⟩, .revoke 4 [("token", .text "access-2")] 4000,
      .revokeRefresh 4]

theorem rotating_performed : ((Machine.perform (step exampleRuntime) init rotatingActs).any fun r =>
    r.2.history.countP (Event.redeemsCode exampleRuntime (exampleRuntime.hashToken "code-1")) = 1 &&
      r.2.db.tokens.map (·.revokedAt) = [some 3000, some 4000]) = true := by
  decide +kernel

theorem rotating_redeemed_once : ∃ ts s, Machine.Run (step exampleRuntime) init ts s ∧
    s.history.countP (Event.redeemsCode exampleRuntime (exampleRuntime.hashToken "code-1")) = 1 ∧
      s.db.tokens.map (·.revokedAt) = [some 3000, some 4000] ∧ RedeemedOnce exampleRuntime ts s := by
  obtain ⟨ts, s, run, ended⟩ := Machine.run_of_perform rotating_performed
  simp only [Bool.and_eq_true, decide_eq_true_eq] at ended
  exact ⟨ts, s, run, ended.1, ended.2, redeemed_once run⟩

end McpSystem

end BetterBullBoard
