import ExpertStreaming.Rebalance.Tokens

/-! # The server's prompt cache

Before a slot takes a new prompt, `server_prompt_cache::load` looks for a saved prompt that is more
like it and restores that prompt's sequence state. The scan compares through temporaries: copies
without the reasoning part, or, where reasoning is not excluded, the token lists themselves, which
are moved out of the slot and of every entry and not moved back.
-/
namespace ExpertStreaming.Server
open Lib Rebalance

/-- `thinking_tokens`. -/
structure ThinkingTokens where
  exclude : Bool := true
  begin : String := "<think>"
  stop : String := "</think>"
  deriving DecidableEq

/-- `server_prompt`; a checkpoint is whatever the server stores for one. -/
structure Prompt (κ : Type) where
  tokens : Tokens
  nKeptPrompt : Int
  nDiscardedPrompt : Int
  thinkTokens : ThinkingTokens := {}
  data : List UInt8 := []
  checkpoints : List κ := []

/-- What a move leaves behind: the containers are empty. -/
def moved (t : Tokens) : Tokens := .text [] t.hasMtmd

/-- What `load` is told from outside: the comparisons of token lists, and the outcome of
`llama_state_seq_set_data`, which may be any. -/
structure Env where
  Score : Type
  less : Score → Score → Bool
  /-- The tokens outside the reasoning parts. -/
  outsideThink : ThinkingTokens → Tokens → Tokens
  /-- `f_keep_cur < min_reusable_fraction`. -/
  keepsTooLittle : Tokens → Tokens → Bool
  tokensSimilarity : Tokens → Tokens → Int → Int → Score
  /-- A list without tokens has no common prefix with any: its similarity is 0, or not a number. -/
  less_moved : ∀ sim t new kept discarded, moved t = t →
    less sim (tokensSimilarity t new kept discarded) = false
  setData : List UInt8 → Tokens → Nat × Tokens

/-- The cached prompts, oldest first, and the tokens in the slot's KV sequence. -/
structure Cache (κ : Type) where
  states : List (Prompt κ)
  sequence : Tokens

variable {κ : Type}

/-- `get_tokens_exclude_think`; an empty delimiter fails an assertion. -/
def tokensExcludeThink (env : Env) (think : ThinkingTokens) (t : Tokens) : Option Tokens :=
  if think.exclude = false then some t
  else if think.begin = "" ∨ think.stop = "" then none
  else some (env.outsideThink think t)

/-- The tokens to compare and the prompt they came from, as `load` leaves it. -/
def compared (env : Env) (think : ThinkingTokens) (p : Prompt κ) : Option (Tokens × Prompt κ) :=
  if think.exclude then (tokensExcludeThink env think p.tokens).map fun t => (t, p)
  else some (p.tokens, { p with tokens := moved p.tokens })

/-- The loop over the entries from index `i` on: the entries as it leaves them and the best. -/
def scan (env : Env) (think : ThinkingTokens) (new : Tokens) :
    Nat → env.Score → Option Nat → List (Prompt κ) → Option (List (Prompt κ) × Option Nat)
  | _, _, best, [] => some ([], best)
  | i, sim, best, e :: rest => do
    let c ← compared env think e
    let cur := env.tokensSimilarity c.1 new e.nKeptPrompt e.nDiscardedPrompt
    let better := !env.keepsTooLittle c.1 new && env.less sim cur
    let r ← scan env think new (i + 1) (if better then cur else sim)
      (if better then some i else best) rest
    some (c.2 :: r.1, r.2)

/-- The setting that `load` reads off the first entry. -/
def Cache.think (cache : Cache κ) : ThinkingTokens :=
  (cache.states.head?.map Prompt.thinkTokens).getD {}

/-- The tokens of the slot and of the new prompt to compare, and what the scan makes of them. -/
def look (env : Env) (prompt : Prompt κ) (new : Tokens) (cache : Cache κ) :
    Option (Prompt κ × List (Prompt κ) × Option Nat) := do
  let base ← compared env cache.think prompt
  let newEx ← tokensExcludeThink env cache.think new
  let r ← scan env cache.think newEx 0
    (env.tokensSimilarity base.1 newEx prompt.nKeptPrompt prompt.nDiscardedPrompt) none cache.states
  some (base.2, r)

/-- `server_prompt_cache::load`: its answer, the slot's prompt and the cache. -/
def load (env : Env) (prompt : Prompt κ) (new : Tokens) (cache : Cache κ) :
    Option (Bool × Prompt κ × Cache κ) := do
  let (base, states, best) ← look env prompt new cache
  match best with
  | none => some (true, base, ⟨states, cache.sequence⟩)
  | some i => do
    let e ← states[i]?
    let out := env.setData e.data cache.sequence
    if out.1 ≠ e.data.length then some (false, base, ⟨states, out.2⟩)
    else some (true, { e with data := [] }, ⟨states.eraseIdx i, out.2⟩)

/-- A slot's tokens and the counts of its last context shift. -/
structure Slot (κ : Type) where
  cacheTokens : Tokens
  nKeptPrompt : Int
  nDiscardedPrompt : Int
  thinkTokens : ThinkingTokens
  cachedPrompt : Prompt κ

/-- `copy_data_to_cached_prompt`. -/
def copyDataToCachedPrompt (s : Slot κ) : Prompt κ :=
  { s.cachedPrompt with
    tokens := s.cacheTokens, nKeptPrompt := s.nKeptPrompt
    nDiscardedPrompt := s.nDiscardedPrompt, thinkTokens := s.thinkTokens }

/-- How `get_available_slot` loads a prompt and recovers the slot's tokens from it. -/
def reload (env : Env) (s : Slot κ) (new : Tokens) (cache : Cache κ) :
    Option (Slot κ × Cache κ) := do
  if cache.states.isEmpty then some (s, cache)
  else
    let r ← load env (copyDataToCachedPrompt s) new cache
    some (⟨r.2.1.tokens, r.2.1.nKeptPrompt, r.2.1.nDiscardedPrompt, s.thinkTokens, r.2.1⟩, r.2.2)

/-! ## What a load leaves -/

/-- Reasoning is excluded, between two delimiters, where `load` looks for the setting. -/
def Excludes (cache : Cache κ) : Prop :=
  cache.think.exclude = true ∧ cache.think.begin ≠ "" ∧ cache.think.stop ≠ ""

/-- The scan has nothing to empty: reasoning is excluded, or slot and entries hold no tokens. -/
def Keeps (prompt : Prompt κ) (cache : Cache κ) : Prop :=
  Excludes cache ∨
    cache.think.exclude = false ∧ ∀ p ∈ prompt :: cache.states, moved p.tokens = p.tokens

/-- An entry was restored into the slot and left the cache, or slot and entries are as before. -/
def Ends (env : Env) (prompt : Prompt κ) (cache : Cache κ) (r : Bool × Prompt κ × Cache κ) : Prop :=
  (∃ (i : Nat) (e : Prompt κ), cache.states[i]? = some e ∧
    (env.setData e.data cache.sequence).1 = e.data.length ∧ r = (true, { e with data := [] },
      ⟨cache.states.eraseIdx i, (env.setData e.data cache.sequence).2⟩)) ∨
  ∃ ok sequence, r = (ok, prompt, ⟨cache.states, sequence⟩) ∧
    (sequence = cache.sequence ∨ ∃ (i : Nat) (e : Prompt κ), cache.states[i]? = some e ∧
      (env.setData e.data cache.sequence).1 ≠ e.data.length ∧
      sequence = (env.setData e.data cache.sequence).2)

/-- The entry that the scan selects, before the load. -/
def selected (env : Env) (prompt : Prompt κ) (new : Tokens) (cache : Cache κ) : Option (Prompt κ) :=
  (look env prompt new cache).bind fun r => r.2.2.bind fun i => cache.states[i]?

/-- The state restore of an entry gives the sequence the entry's tokens, or fails and leaves it. -/
def RestoresWhole (env : Env) (sequence : Tokens) (e : Prompt κ) : Prop :=
  (env.setData e.data sequence).2 =
    if (env.setData e.data sequence).1 = e.data.length then e.tokens else sequence

/-- A prompt as the scan leaves it. -/
def scanned (think : ThinkingTokens) (p : Prompt κ) : Prompt κ :=
  if think.exclude then p else { p with tokens := moved p.tokens }

section

variable {env : Env} {think : ThinkingTokens} {new : Tokens}

theorem data_scanned (p : Prompt κ) : (scanned think p).data = p.data := by
  unfold scanned
  split <;> rfl

theorem tokensExcludeThink_ends (h : think.exclude = true → think.begin ≠ "" ∧ think.stop ≠ "")
    (t : Tokens) :
    ∃ t', tokensExcludeThink env think t = some t' ∧ (think.exclude = false → t' = t) := by
  unfold tokensExcludeThink
  split
  · exact ⟨t, rfl, fun _ => rfl⟩
  next hexclude =>
    rw [if_neg (by simpa using h (by simpa using hexclude))]
    exact ⟨_, rfl, fun hoff => absurd hoff hexclude⟩

theorem compared_ends (h : think.exclude = true → think.begin ≠ "" ∧ think.stop ≠ "")
    (p : Prompt κ) : ∃ t, compared env think p = some (t, scanned think p) ∧
      (think.exclude = false → t = p.tokens) := by
  obtain ⟨t, ht, hoff⟩ := @tokensExcludeThink_ends env think h p.tokens
  unfold compared scanned
  split
  · exact ⟨t, by rw [ht]; rfl, hoff⟩
  · exact ⟨_, rfl, fun _ => rfl⟩

/-- The scan goes through, and a selected entry had something to compare. -/
theorem scan_ends (h : think.exclude = true → think.begin ≠ "" ∧ think.stop ≠ "") :
    ∀ (states : List (Prompt κ)) (i : Nat) (sim : env.Score) (best : Option Nat),
      ∃ best', scan env think new i sim best states = some (states.map (scanned think), best') ∧
        (best' = best ∨ ∃ j e, states[j]? = some e ∧ best' = some (i + j) ∧
          (think.exclude = false → moved e.tokens ≠ e.tokens))
  | [], _, _, best => ⟨best, rfl, .inl rfl⟩
  | e :: rest, i, sim, best => by
    obtain ⟨t, ht, hoff⟩ := @compared_ends κ env think h e
    simp only [scan, ht, Option.bind_eq_bind, Option.bind_some]
    generalize hbetter : (!_ && _) = better
    obtain ⟨best', hscan, hbest⟩ := scan_ends h rest (i + 1)
      (if better then env.tokensSimilarity t new e.nKeptPrompt e.nDiscardedPrompt else sim)
      (if better then some i else best)
    refine ⟨best', by simp [hscan], ?_⟩
    rcases hbest with rfl | ⟨j, e', hj, rfl, he'⟩
    · cases better with
      | false => exact .inl rfl
      | true =>
        refine .inr ⟨0, e, rfl, rfl, fun hexclude hempty => ?_⟩
        rw [hoff hexclude, env.less_moved _ _ _ _ _ hempty, Bool.and_false] at hbetter
        exact absurd hbetter (by decide)
    · exact .inr ⟨j + 1, e', hj, congrArg some (by omega), he'⟩

end

section

variable {env : Env} {prompt : Prompt κ} {new : Tokens} {cache : Cache κ}

/-- What a load can do where no delimiter is missing. -/
theorem load_cases
    (h : cache.think.exclude = true → cache.think.begin ≠ "" ∧ cache.think.stop ≠ "") :
    (selected env prompt new cache = none ∧ load env prompt new cache =
      some (true, scanned cache.think prompt,
        ⟨cache.states.map (scanned cache.think), cache.sequence⟩)) ∨
    ∃ i e, cache.states[i]? = some e ∧ selected env prompt new cache = some e ∧
      (cache.think.exclude = false → moved e.tokens ≠ e.tokens) ∧
      load env prompt new cache =
        if (env.setData e.data cache.sequence).1 ≠ e.data.length then
          some (false, scanned cache.think prompt,
            ⟨cache.states.map (scanned cache.think), (env.setData e.data cache.sequence).2⟩)
        else some (true, { scanned cache.think e with data := [] },
          ⟨(cache.states.map (scanned cache.think)).eraseIdx i,
            (env.setData e.data cache.sequence).2⟩) := by
  obtain ⟨t, ht, -⟩ := @compared_ends κ env cache.think h prompt
  obtain ⟨newEx, hnew, -⟩ := @tokensExcludeThink_ends env cache.think h new
  obtain ⟨best, hscan, hbest⟩ := @scan_ends κ env cache.think newEx h cache.states 0
    (env.tokensSimilarity t newEx prompt.nKeptPrompt prompt.nDiscardedPrompt) none
  have hlook : look env prompt new cache =
      some (scanned cache.think prompt, cache.states.map (scanned cache.think), best) := by
    simp [look, ht, hnew, hscan]
  unfold load selected
  rw [hlook]
  rcases hbest with rfl | ⟨i, e, hi, rfl, he⟩
  · exact .inl ⟨rfl, rfl⟩
  · rw [Nat.zero_add]
    refine .inr ⟨i, e, hi, by simp [hi], he, ?_⟩
    simp [hi, data_scanned]

theorem Keeps.delimited (h : Keeps prompt cache) :
    cache.think.exclude = true → cache.think.begin ≠ "" ∧ cache.think.stop ≠ "" := by
  intro hexclude
  rcases h with h | ⟨hoff, -⟩
  · exact h.2
  · exact absurd (hoff.symm.trans hexclude) (by decide)

theorem Keeps.scanned_eq (h : Keeps prompt cache) {p : Prompt κ} (hp : p ∈ prompt :: cache.states) :
    scanned cache.think p = p := by
  unfold scanned
  rcases h with h | ⟨hoff, hempty⟩
  · rw [if_pos h.1]
  · rw [if_neg (by simp [hoff]), hempty p hp]

theorem Keeps.map_scanned (h : Keeps prompt cache) :
    cache.states.map (scanned cache.think) = cache.states :=
  (List.map_congr_left fun _ hp => h.scanned_eq (List.mem_cons_of_mem _ hp)).trans (List.map_id _)

/-- What a load does where the scan has nothing to empty. -/
theorem Keeps.load_cases (h : Keeps prompt cache) :
    (selected env prompt new cache = none ∧
      load env prompt new cache = some (true, prompt, cache)) ∨
    ∃ i e, cache.states[i]? = some e ∧ selected env prompt new cache = some e ∧
      load env prompt new cache =
        if (env.setData e.data cache.sequence).1 ≠ e.data.length then
          some (false, prompt, ⟨cache.states, (env.setData e.data cache.sequence).2⟩)
        else some (true, { e with data := [] },
          ⟨cache.states.eraseIdx i, (env.setData e.data cache.sequence).2⟩) := by
  have hcases := @Server.load_cases κ env prompt new cache h.delimited
  rw [h.map_scanned, h.scanned_eq (List.mem_cons_self ..)] at hcases
  rcases hcases with hnone | ⟨i, e, hi, hselected, -, hload⟩
  · exact .inl hnone
  · rw [h.scanned_eq (List.mem_cons_of_mem _ (List.mem_of_getElem? hi))] at hload
    exact .inr ⟨i, e, hi, hselected, hload⟩

theorem Keeps.ends (h : Keeps prompt cache) :
    ∃ r, load env prompt new cache = some r ∧ Ends env prompt cache r := by
  rcases @Keeps.load_cases κ env prompt new cache h with ⟨-, hload⟩ | ⟨i, e, hi, -, hload⟩
  · exact ⟨_, hload, .inr ⟨true, _, rfl, .inl rfl⟩⟩
  split at hload
  next hfailed => exact ⟨_, hload, .inr ⟨false, _, rfl, .inr ⟨i, e, hi, hfailed, rfl⟩⟩⟩
  next hall => exact ⟨_, hload, .inl ⟨i, e, hi, not_not.mp hall, rfl⟩⟩

theorem Keeps.described {slot : Slot κ} (h : Keeps (copyDataToCachedPrompt slot) cache)
    (hdescribed : slot.cacheTokens = cache.sequence) :
    (∃ slot' cache', reload env slot new cache = some (slot', cache') ∧
      slot'.cacheTokens = cache'.sequence) ↔
    ∀ e, selected env (copyDataToCachedPrompt slot) new cache = some e →
      RestoresWhole env cache.sequence e := by
  unfold reload
  rcases @Keeps.load_cases κ env (copyDataToCachedPrompt slot) new cache h with
    ⟨hnone, hload⟩ | ⟨i, e, hi, hselected, hload⟩
  · simp only [hnone, reduceCtorEq, false_implies, implies_true, iff_true]
    split
    · exact ⟨slot, cache, rfl, hdescribed⟩
    · rw [hload]
      exact ⟨_, _, rfl, hdescribed⟩
  · have hne : cache.states.isEmpty = false := by
      cases hstates : cache.states with
      | nil => simp [hstates] at hi
      | cons _ _ => rfl
    simp only [hselected, Option.some.injEq, forall_eq', RestoresWhole, hne, Bool.false_eq_true,
      if_false, hload]
    by_cases hall : (env.setData e.data cache.sequence).1 = e.data.length
    · simp [hall, eq_comm]
    · simp [hall, copyDataToCachedPrompt, hdescribed, eq_comm]

end

end ExpertStreaming.Server
