import StremioNzb.Addon.Normalize

/-!
# Access tokens

`user_for_key`: the user whose key a token is. After `normalize` and `validate` a token has one
owner at most, whatever order the map of the users iterates in (`tokensIdentify`).
-/

namespace StremioNzb.Addon

open StremioNzb.Lib

namespace AddonConfig

/-- The name of the first user whose key is the token. -/
def userForKey (cfg : AddonConfig) (token : String) : Option String :=
  if token.isEmpty then none
  else (cfg.users.entries.find? fun (_, user) => user.key = token).map (·.1)

variable {c c' : AddonConfig} {name : String} {user : UserConfig} {token : String}

/-! ## What the addon starts with -/

/-- No key is met again exactly if the keys are distinct and new. -/
theorem sharedKey_eq_none_iff {seen : List (String × String)}
    {entries : List (String × UserConfig)} : sharedKey seen entries = none ↔
      (entries.map (·.2.key)).Nodup ∧ ∀ e ∈ entries, e.2.key ∉ seen.map Prod.fst := by
  induction entries generalizing seen with
  | nil => simp [sharedKey]
  | cons e rest ih =>
    obtain ⟨name, user⟩ := e
    have hnew : seen.lookup user.key = none ↔ user.key ∉ seen.map Prod.fst := by
      rw [List.lookup_eq_none_iff]
      refine ⟨fun h hmem => ?_, fun h e he => bne_iff_ne.mpr fun heq => ?_⟩
      · obtain ⟨e, he, heq⟩ := List.mem_map.mp hmem
        exact bne_iff_ne.mp (h e he) heq.symm
      · exact h (List.mem_map.mpr ⟨e, he, heq.symm⟩)
    unfold sharedKey
    rw [List.map_cons, List.nodup_cons]
    cases hs : seen.lookup user.key with
    | some prev =>
      refine iff_of_false (by simp) fun h => ?_
      rw [hnew.mpr (h.2 _ List.mem_cons_self)] at hs
      cases hs
    | none =>
      have hseen := hnew.mp hs
      simp only [ih, List.map_cons, List.mem_cons, not_or, forall_eq_or_imp]
      refine ⟨fun h => ⟨⟨fun hmem => ?_, h.1⟩, hseen, fun e he => (h.2 e he).2⟩,
        fun h => ⟨h.1.2, fun e he => ⟨fun heq => ?_, h.2.2 e he⟩⟩⟩
      · obtain ⟨e, he, heq⟩ := List.mem_map.mp hmem
        exact (h.2 e he).1 heq
      · exact h.1.1 (List.mem_map.mpr ⟨e, he, heq⟩)

/-- **What `validate` checks**, in any order of the users. -/
structure Valid (c : AddonConfig) : Prop where
  indexers : c.defaults.indexers ≠ []
  nntpServers : c.defaults.nntpServers ≠ []
  users : c.requireAuth = true → c.users.entries ≠ []
  keys : ∀ name user, c.users.get name = some user → user.key ≠ ""
  distinct : ∀ name user name' user', c.users.get name = some user →
    c.users.get name' = some user' → user.key = user'.key → name = name'

theorem find?_empty_key : (c.users.entries.find? fun (_, user) => user.key.isEmpty) = none ↔
    ∀ name user, c.users.get name = some user → user.key ≠ "" := by
  simp only [List.find?_eq_none, get_eq_some, String.isEmpty_iff, Prod.forall, ne_eq]

theorem nodup_keys : (c.users.entries.map (·.2.key)).Nodup ↔
    ∀ name user name' user', c.users.get name = some user → c.users.get name' = some user' →
      user.key = user'.key → name = name' := by
  have hnd := c.users.nodup.of_map
  simp only [get_eq_some]
  rw [List.nodup_map_iff_inj_on hnd]
  refine ⟨fun h name user name' user' hu hu' hkey => ?_, fun h e he e' he' hkey => ?_⟩
  · exact congrArg Prod.fst (h _ hu _ hu' hkey)
  · have hname := h e.1 e.2 e'.1 e'.2 he he' hkey
    exact List.inj_on_of_nodup_map c.users.nodup he he' hname

theorem validate_eq_ok_iff : c.validate = .ok () ↔ c.defaults.indexers.isEmpty = false ∧
    c.defaults.nntpServers.isEmpty = false ∧
    (c.requireAuth && c.users.entries.isEmpty) = false ∧
    (c.users.entries.find? fun (_, user) => user.key.isEmpty) = none ∧
    sharedKey [] c.users.entries = none := by
  unfold validate
  cases c.defaults.indexers.isEmpty with
  | true => simp
  | false =>
    cases c.defaults.nntpServers.isEmpty with
    | true => simp
    | false =>
      cases c.requireAuth && c.users.entries.isEmpty with
      | true => simp
      | false =>
        cases (c.users.entries.find? fun (_, user) => user.key.isEmpty) with
        | some e => simp
        | none => cases sharedKey [] c.users.entries <;> simp

theorem validate_eq_ok : c.validate = .ok () ↔ c.Valid := by
  rw [validate_eq_ok_iff, find?_empty_key, sharedKey_eq_none_iff, nodup_keys]
  refine ⟨fun ⟨h₁, h₂, h₃, h₄, h₅, _⟩ => ⟨?_, ?_, fun hauth => ?_, h₄, h₅⟩,
    fun h => ⟨?_, ?_, ?_, h.keys, h.distinct, fun _ _ => List.not_mem_nil⟩⟩
  · exact List.isEmpty_eq_false_iff.mp h₁
  · exact List.isEmpty_eq_false_iff.mp h₂
  · rw [hauth, Bool.true_and] at h₃
    exact List.isEmpty_eq_false_iff.mp h₃
  · exact List.isEmpty_eq_false_iff.mpr h.indexers
  · exact List.isEmpty_eq_false_iff.mpr h.nntpServers
  · cases hauth : c.requireAuth with
    | false => rfl
    | true =>
      rw [Bool.true_and]
      exact List.isEmpty_eq_false_iff.mpr (h.users hauth)

theorem Same.valid (h : c.Same c') (hv : c.Valid) : c'.Valid where
  indexers := h.defaults ▸ hv.indexers
  nntpServers := h.defaults ▸ hv.nntpServers
  users hauth := fun hnil => hv.users (h.requireAuth.trans hauth)
    (List.Perm.eq_nil (hnil ▸ h.users))
  keys name user hu := hv.keys name user ((h.get name).trans hu)
  distinct name user name' user' hu hu' :=
    hv.distinct name user name' user' ((h.get name).trans hu) ((h.get name').trans hu')

/-! ## Whom a token finds -/

/-- **Each token identifies one user.** -/
structure TokensIdentify (c : AddonConfig) : Prop where
  keys : ∀ name user, c.users.get name = some user → user.key ≠ "" ∧ trim user.key = user.key
  unique : ∀ token name user name' user', c.users.get name = some user →
    c.users.get name' = some user' → user.key = token → user'.key = token → name = name'
  owner : ∀ token name, c.userForKey token = some name ↔
    ∃ user, c.users.get name = some user ∧ user.key = token
  resolved : ∀ token name user, c.users.get name = some user → user.key = token →
    c.resolve (c.userForKey token) = c.defaults.mergedWith user
  anyOrder : ∀ c', c.Same c' → c'.validate = .ok () ∧ ∀ token,
    c'.userForKey token = c.userForKey token ∧
      c'.resolve (c'.userForKey token) = c.resolve (c.userForKey token)

/-- Where keys are distinct and not empty, the first match is the only one. -/
theorem Valid.userForKey_eq_some (h : c.Valid) : c.userForKey token = some name ↔
    ∃ user, c.users.get name = some user ∧ user.key = token := by
  unfold userForKey
  split
  · rename_i hempty
    refine iff_of_false (by simp) fun ⟨user, hu, hkey⟩ => h.keys name user hu ?_
    rw [hkey]
    exact String.isEmpty_iff.mp hempty
  · refine ⟨fun hf => ?_, fun ⟨user, hu, hkey⟩ => ?_⟩
    · obtain ⟨e, he, rfl⟩ := Option.map_eq_some_iff.mp hf
      exact ⟨e.2, get_eq_some.mpr (List.mem_of_find?_eq_some he), by simpa using List.find?_some he⟩
    · cases hf : c.users.entries.find? fun (_, user) => user.key = token with
      | none =>
        have := List.find?_eq_none.mp hf _ (get_eq_some.mp hu)
        exact absurd hkey (by simpa using this)
      | some e =>
        have hkey' : e.2.key = token := by simpa using List.find?_some hf
        have hget := get_eq_some.mpr (List.mem_of_find?_eq_some hf)
        rw [Option.map_some, h.distinct e.1 e.2 name user hget hu (hkey'.trans hkey.symm)]

theorem Same.resolve (h : c.Same c') (name : Option String) : c'.resolve name = c.resolve name := by
  have hget : name.bind c'.users.get = name.bind c.users.get :=
    congrArg name.bind (funext fun n => (h.get n).symm)
  rw [AddonConfig.resolve, AddonConfig.resolve, hget, h.defaults]

theorem Valid.anyOrder (h : c.Valid) (hsame : c.Same c') (token : String) :
    c'.userForKey token = c.userForKey token := by
  refine Option.ext fun name => ?_
  rw [h.userForKey_eq_some, (hsame.valid h).userForKey_eq_some]
  simp only [hsame.get]

/-- **In every configuration that is normalised and valid, tokens identify the users.** -/
theorem tokensIdentify (h : c.NormalizesTo c') (hvalid : c'.validate = .ok ()) :
    c'.TokensIdentify := by
  have hv := validate_eq_ok.mp hvalid
  refine ⟨fun name user hu => ⟨hv.keys name user hu, ?_⟩, ?_, fun _ _ => hv.userForKey_eq_some, ?_,
    fun d hsame => ⟨validate_eq_ok.mpr (hsame.valid hv),
      fun token => ⟨hv.anyOrder hsame token, ?_⟩⟩⟩
  · have hnorm := (h.fixed hu).2.2
    exact congrArg UserConfig.key hnorm
  · intro token name user name' user' hu hu' hkey hkey'
    exact hv.distinct name user name' user' hu hu' (hkey.trans hkey'.symm)
  · intro token name user hu hkey
    rw [hv.userForKey_eq_some.mpr ⟨user, hu, hkey⟩, AddonConfig.resolve, Option.bind_some, hu]
  · rw [hv.anyOrder hsame token, hsame.resolve]

/-- Two users under names and keys with blanks around them. -/
def aliceAndBob : AddonConfig where
  defaults := { indexers := [⟨"https://x", "k"⟩], nntpServers := [⟨"nntps://x"⟩] }
  users := ⟨[(" alice", { key := "one " }), ("bob", { key := " two" })], by decide⟩

theorem tokensIdentify_aliceAndBob : aliceAndBob.normalize.validate = .ok () ∧
    aliceAndBob.normalize.userForKey "one" = some "alice" ∧
    aliceAndBob.normalize.TokensIdentify := by
  have hvalid : aliceAndBob.normalize.validate = .ok () := by decide +kernel
  exact ⟨hvalid, by decide +kernel, tokensIdentify ⟨aliceAndBob, .refl _, .refl _⟩ hvalid⟩

end AddonConfig

end StremioNzb.Addon
