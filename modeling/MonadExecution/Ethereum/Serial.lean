import MonadExecution.Ethereum.Parallel

/-!
# Every schedule is serial

The invariant of the machine says of each transaction how far it has come. A first attempt may have been
given any answers, as long as the block state remembers the questions. A second attempt or a final part is
due only for the transaction whose turn it is, and has seen the present contents only. What is still to
come is described by the transactions that are left, executed one after the other from a block state with
the present contents.
-/

namespace MonadExecution.Ethereum

open Function List Option BlockState

variable {ε ρ τ : Type}

/-! ## Entries for everything that is known -/

/-- Every record of the state has its original, and every original an entry in the block state. -/
structure Stocked (bs : BlockState) (st : State) : Prop where
  loaded : ∀ a s, st.current.lookup a = some s → ∃ o, st.original.lookup a = some o
  entry : ∀ a o, st.original.lookup a = some o → ∃ d, bs.deltas.lookup a = some d

namespace Stocked

variable {bs bs' : BlockState} {st st' : State}

theorem fresh (bs : BlockState) (env : Environment) (j : Nat) : Stocked bs (env.fresh j) where
  loaded _ _ h := by cases h
  entry _ _ h := by cases h

theorem loadedState {i : Incarnation} {a : Address} {account : Option Account}
    (h : Remembered bs ⟨.account a, none⟩) : Stocked bs (loadedState i a account) where
  loaded _ _ h := by cases h
  entry b o ho := by
    rw [lookup_loadedState] at ho
    split_ifs at ho with hab
    rw [hab]
    exact h

theorem changes {rule : Rule} {tr : List Event} (h : Stocked bs st) (hc : Changes rule st tr st')
    (hrem : ∀ e ∈ tr, Remembered bs e) : Stocked bs st' where
  loaded := hc.invariant (I := fun _ st => ∀ a s, st.current.lookup a = some s →
      ∃ o, st.original.lookup a = some o) h.loaded fun _ _ _ _ hI hstep _ _ hs => hstep.loaded hI hs
  entry a o ho := by
    rcases hc.original_from ho with ⟨o0, ho0⟩ | ⟨account, hmem⟩
    · exact h.entry a o0 ho0
    · exact hrem _ hmem

theorem grown (h : Stocked bs st) (hg : bs.Grown bs') : Stocked bs' st where
  loaded := h.loaded
  entry a o ho := by
    obtain ⟨d, hd⟩ := h.entry a o ho
    obtain ⟨d', hd', -⟩ := hg.entry a d hd
    exact ⟨d', hd'⟩

/-- Whatever such a state asks for can be answered. -/
theorem answer (h : Stocked bs st) {q : Query} (hfits : Fits st q) : ∃ y bs', bs.answer q = some (y, bs') := by
  cases q with
  | account | code => exact ⟨_, _, rfl⟩
  | storage a i key =>
    obtain ⟨x, account, hx, -, -⟩ := hfits
    obtain ⟨o, ho⟩ := original_of_recent h.loaded hx
    obtain ⟨d, hd⟩ := h.entry a o ho
    obtain ⟨bs', hread, -⟩ := readStorage_spec hd i key
    exact ⟨_, bs', hread⟩

end Stocked

/-! ## How far a transaction has come -/

/-- A computation that has been given the answers of the present contents only. -/
def Present {α : Type} (bs : BlockState) (start t : Ask α) : Prop :=
  ∃ tr, start.Steps tr t ∧ (∀ e ∈ tr, e.2 = bs.view.answer e.1) ∧ ∀ e ∈ tr, Noted bs e.1

theorem remembered_of_noted {bs : BlockState} {e : Event} (hv : e.2 = bs.view.answer e.1)
    (hn : Noted bs e.1) : Remembered bs e := by
  obtain ⟨q, y⟩ := e
  cases q with
  | account a => exact hn
  | storage a i key => exact fun _ hlife => hn hlife
  | code hash =>
    intro c hc
    rw [← hc]
    exact hv.symm

namespace Present

variable {α : Type} {bs bs' : BlockState} {start t : Ask α}

theorem refl (bs : BlockState) (t : Ask α) : Present bs t t := ⟨[], .refl t, by simp, by simp⟩

theorem grown (h : Present bs start t) (hg : bs.Grown bs') : Present bs' start t := by
  obtain ⟨tr, hss, hv, hn⟩ := h
  refine ⟨tr, hss, ?_, fun e he => (hn e he).grown hg⟩
  rw [hg.view_eq]
  exact hv

theorem ask {q : Query} {next : q.Answer → Ask α} {y : q.Answer} (h : Present bs start (.ask q next))
    (hq : bs.answer q = some (y, bs')) : Present bs' start (next y) := by
  obtain ⟨hy, hg⟩ := answer_spec hq
  obtain ⟨tr, hss, hv, hn⟩ := h.grown hg
  refine ⟨tr ++ [⟨q, y⟩], hss.snoc y, ?_, ?_⟩
  · intro e he
    rcases mem_append.mp he with he | he
    · exact hv e he
    rw [mem_singleton.mp he, hg.view_eq]
    exact hy
  · intro e he
    rcases mem_append.mp he with he | he
    · exact hn e he
    rw [mem_singleton.mp he]
    exact noted_answer hq

theorem answer_eq (h : Present bs start t) : start.answer bs.view.answer = t.answer bs.view.answer := by
  obtain ⟨tr, hss, hv, -⟩ := h
  exact Reading.answer_eq_of_steps hss hv

end Present

/-- A first attempt: it has not begun, or it has the sender loaded and has been given any answers since
that are still remembered. -/
def FirstOk (env : Environment) (j : Nat) (tx : Transaction ε ρ τ) (bs : BlockState)
    (t : Ask (Except ε ρ × State)) : Prop :=
  t = tx.attempt env (env.fresh j) ∨
  ∃ account tr, Remembered bs ⟨.account tx.sender, none⟩ ∧
    (tx.body.run env.keccak (loadedState (env.incarnation j) tx.sender (some account))).Steps tr t ∧
    ∀ e ∈ tr, Remembered bs e

theorem attempt_eq (env : Environment) (j : Nat) (tx : Transaction ε ρ τ) :
    tx.attempt env (env.fresh j) = .ask (.account tx.sender) fun account =>
      tx.body.run env.keccak (loadedState (env.incarnation j) tx.sender
        (some { account.getD {} with nonce := tx.nonce })) := by
  have hstate : ∀ o o' : OriginalAccountState, ((env.fresh j).setOriginal tx.sender o).setOriginal
      tx.sender o' = (env.fresh j).setOriginal tx.sender o' := by
    intro o o'
    unfold State.setOriginal
    simp only [AList.insert_insert]
  refine congrArg (Reading.ask (Query.account tx.sender)) (funext fun account => ?_)
  exact congrArg (tx.body.run env.keccak) (hstate _ _)

namespace FirstOk

variable {env : Environment} {j : Nat} {tx : Transaction ε ρ τ} {bs bs' : BlockState}

theorem mono {t : Ask (Except ε ρ × State)} (h : FirstOk env j tx bs t)
    (hbs : ∀ e, Remembered bs e → Remembered bs' e) : FirstOk env j tx bs' t := by
  rcases h with rfl | ⟨account, tr, hsen, hss, hrem⟩
  · exact .inl rfl
  · exact .inr ⟨account, tr, hbs _ hsen, hss, fun e he => hbs e (hrem e he)⟩

section

variable {q : Query} {next : q.Answer → Ask (Except ε ρ × State)} (h : FirstOk env j tx bs (.ask q next))

include h

theorem ask {y : q.Answer} (hq : bs.answer q = some (y, bs')) : FirstOk env j tx bs' (next y) := by
  rcases h with h | ⟨account, tr, hsen, hss, hrem⟩
  · rw [attempt_eq] at h
    cases h
    exact .inr ⟨_, [], noted_answer hq, .refl _, by simp⟩
  have hg := (answer_spec hq).2
  refine .inr ⟨account, tr ++ [⟨q, y⟩], hsen.grown hg, hss.snoc y, ?_⟩
  intro e he
  rcases mem_append.mp he with he | he
  · exact (hrem e he).grown hg
  rw [mem_singleton.mp he]
  exact remembered_answer hq

/-- Its questions can be answered. -/
theorem answer : ∃ y bs', bs.answer q = some (y, bs') := by
  rcases h with h | ⟨account, tr, hsen, hss, hrem⟩
  · rw [attempt_eq] at h
    cases h
    exact ⟨_, _, rfl⟩
  · obtain ⟨st, hch, hfits⟩ := (run_leads env.keccak tx.body _).of_steps_ask hss fun _ _ => trivial
    exact ((Stocked.loadedState hsen).changes hch hrem).answer hfits

end

variable {r : Except ε ρ}

/-- A first attempt that has returned: its state has everything on record and allows no repairs. -/
theorem done {st : State} (h : FirstOk env j tx bs (.done (r, st))) :
    Stocked bs st ∧ st.relaxedValidation = false := by
  rcases h with h | ⟨account, tr, hsen, hss, hrem⟩
  · rw [attempt_eq] at h
    cases h
  · obtain ⟨hch, -⟩ := (run_leads env.keccak tx.body _).of_steps hss fun _ _ => trivial
    exact ⟨(Stocked.loadedState hsen).changes hch hrem, hch.relaxed_eq⟩

/-- **A first attempt that can be merged** has done what the transaction does on the present contents. -/
theorem accept {r₀ : Except ε ρ} {st st' st0 : State} (h : FirstOk env j tx bs (.done (r, st)))
    (hmerge : bs.canMerge st = some (true, st')) (hord : tx.Orderly env j bs.view)
    (hbody : (tx.body.run env.keccak (env.fresh j)).answer bs.view.answer = some (r₀, st0)) :
    r = r₀ ∧ st' = st ∧ Preloaded bs.view st0 st := by
  obtain ⟨hst, hpass⟩ := passes_of_canMerge h.done.2 hmerge
  rcases h with h | ⟨account, tr, hsen, hss, hrem⟩
  · rw [attempt_eq] at h
    cases h
  obtain ⟨hch, -⟩ := (run_leads env.keccak tx.body _).of_steps hss fun _ _ => trivial
  -- the nonce that was assumed is the one the sender has now
  have hsame : some account = bs.view.account tx.sender := by
    obtain ⟨o, ho, hacc⟩ := hch.account_eq ((lookup_loadedState ..).trans (if_pos rfl))
    obtain ⟨d, hd, heq, -⟩ := hpass tx.sender o ho
    exact hacc.symm.trans (heq.trans (view_account hd).symm)
  rw [hsame] at hss
  have hpre := preloaded_fresh bs.view (env.incarnation j) tx.sender
  have hkeeps := keeps_of_preloaded env.keccak tx.body hpre hbody hord.body
  have hagr := agrees_of_passes env.keccak (fun _ h => h) hkeeps hss hpass hrem
  have hrun := Reading.answer_of_steps hss hagr
  obtain ⟨st₂, hrun2, hpre2⟩ := follows_run env.keccak tx.body _ _ _ _ hpre hbody
  rw [hrun] at hrun2
  cases hrun2
  exact ⟨rfl, hst, hpre2⟩

end FirstOk

/-- How far the transaction at position `j` has come; `turn` says that all earlier ones are through. -/
def PhaseOk (env : Environment) (j : Nat) (tx : Transaction ε ρ τ) (bs : BlockState) (turn : Prop) :
    Phase ε ρ τ → Prop
  | .first t => FirstOk env j tx bs t
  | .retry t => turn ∧ Present bs (tx.body.run env.keccak (env.fresh j)) t
  | .finish t => turn ∧ ∃ r st st₂, (tx.body.run env.keccak (env.fresh j)).answer bs.view.answer = some (.ok r, st) ∧
      Preloaded bs.view st st₂ ∧ Stocked bs st₂ ∧ Present bs (tx.finish env r st₂) t
  | .ended => False

namespace PhaseOk

variable {env : Environment} {j : Nat} {tx : Transaction ε ρ τ} {bs bs' : BlockState} {turn : Prop}
  {phase : Phase ε ρ τ}

theorem grown (h : PhaseOk env j tx bs turn phase) (hg : bs.Grown bs') : PhaseOk env j tx bs' turn phase := by
  cases phase with
  | first t => exact FirstOk.mono h fun e he => he.grown hg
  | retry t => exact ⟨h.1, h.2.grown hg⟩
  | finish t =>
    obtain ⟨hturn, r, st, st₂, hbody, hpre, hstock, hpres⟩ := h
    refine ⟨hturn, r, st, st₂, ?_, ?_, hstock.grown hg, hpres.grown hg⟩
    · rw [hg.view_eq]
      exact hbody
    · rw [hg.view_eq]
      exact hpre
  | ended => exact h

/-- A transaction whose turn it is not yet is at its first attempt, which survives the merges of
others. -/
theorem later {turn' : Prop} (h : PhaseOk env j tx bs turn phase) (hturn : ¬ turn)
    (hbs : ∀ e, Remembered bs e → Remembered bs' e) : PhaseOk env j tx bs' turn' phase := by
  cases phase with
  | first t => exact FirstOk.mono h hbs
  | retry | finish => exact absurd h.1 hturn
  | ended => exact h

end PhaseOk

/-! ## The final part -/

section Final

variable {env : Environment} {j : Nat} {tx : Transaction ε ρ τ} {bs : BlockState} {r : ρ} {st st' : State}

/-- The final part proceeds by the steps of its program, and ends with the deletions. -/
theorem finish_leads (env : Environment) (tx : Transaction ε ρ τ) (r : ρ) (st : State) :
    (tx.finish env r st).Ends (fun _ _ => True) (fun tr q => ∃ st1, Changes Rule.any st tr st1 ∧ Fits st1 q)
      fun tr y => ∃ st1, Changes Rule.any st tr st1 ∧ Trimmed st1 y.2 := by
  refine Reading.Ends.bind (Reading.Ends.mono (run_leads env.keccak (tx.final r) st)
    (fun _ _ h => h) (fun _ _ h => h) ?_)
  rintro tr ⟨x, st1⟩ ⟨hch, -⟩
  show Reading.Ends _ _ (Transaction.cleanup env st1 >>= fun z => .done (x, z.2)) _
  rcases cleanup_cases env st1 with hc | ⟨st₂, hc, htrim⟩
  · rw [hc]
    trivial
  rw [hc]
  refine ⟨st1, ?_, htrim⟩
  rw [append_nil]
  exact hch

theorem Present.remembered {α : Type} {start t : Ask α} (h : Present bs start t) :
    ∃ tr, start.Steps tr t ∧ ∀ e ∈ tr, Remembered bs e := by
  obtain ⟨tr, hss, hv, hn⟩ := h
  exact ⟨tr, hss, fun e he => remembered_of_noted (hv e he) (hn e he)⟩

/-- The same records and codes are merged alike. -/
theorem View.merge_congr (v : View) (hcur : st'.current = st.current) (hcode : st'.code = st.code) :
    v.merge st' = v.merge st := by
  unfold View.merge State.usesCode
  simp only [hcur, hcode]

end Final

/-! ## The invariant of the machine -/

/-- The machine is on the way to the results and the block state that the transactions give one after the
other. -/
structure Invariant (env : Environment) (txs : List (Transaction ε ρ τ)) (results : List (Except ε τ))
    (bsEnd : BlockState) (m : Machine ε ρ τ) : Prop where
  before : m.bs.db.Before env.number
  ended : ∀ j, j < m.results.length → m.phases j = .ended
  phases : ∀ j tx, txs[j]? = some tx → m.results.length ≤ j →
    PhaseOk env j tx m.bs (m.results.length = j) (m.phases j)
  rest : ∃ bs rs, bs.db = m.bs.db ∧ bs.view = m.bs.view ∧
    executeAll env m.results.length (txs.drop m.results.length) bs = some (rs, bsEnd) ∧
    Orderly env m.results.length (txs.drop m.results.length) bs ∧ m.results ++ rs = results

section Invariant

variable {env : Environment} {txs : List (Transaction ε ρ τ)} {results : List (Except ε τ)}
  {bsEnd : BlockState} {m m' : Machine ε ρ τ} {tx : Transaction ε ρ τ}

/-- What the transaction whose turn it is does on the present contents. -/
structure Turn (env : Environment) (txs : List (Transaction ε ρ τ)) (results : List (Except ε τ))
    (bsEnd : BlockState) (m : Machine ε ρ τ) (tx : Transaction ε ρ τ) (r : Except ε ρ) (st : State)
    (result : Except ε τ) (bs' : BlockState) : Prop where
  orderly : tx.Orderly env m.results.length m.bs.view
  body : (tx.body.run env.keccak (env.fresh m.results.length)).answer m.bs.view.answer = some (r, st)
  outcome : (∃ e, r = .error e ∧ result = .error e ∧ bs'.view = m.bs.view) ∨
    ∃ r' x st', r = .ok r' ∧ (tx.finish env r' st).answer m.bs.view.answer = some (x, st') ∧
      result = .ok x ∧ m.bs.Fitting st' ∧ bs'.view = m.bs.view.merge st' ∧
      ∀ a s, st'.current.lookup a = some s → s.below = [] ∧ s.version = 0
  db : bs'.db = m.bs.db
  rest : ∃ rs, executeAll env (m.results.length + 1) (txs.drop (m.results.length + 1)) bs' =
      some (rs, bsEnd) ∧ Orderly env (m.results.length + 1) (txs.drop (m.results.length + 1)) bs' ∧
    m.results ++ [result] ++ rs = results

theorem Invariant.turn (h : Invariant env txs results bsEnd m) (htx : txs[m.results.length]? = some tx) :
    ∃ r st result bs', Turn env txs results bsEnd m tx r st result bs' := by
  obtain ⟨bs, rs, hdb, hview, hexec, hord, hress⟩ := h.rest
  obtain ⟨hlt, rfl⟩ := List.getElem?_eq_some_iff.mp htx
  rw [drop_eq_getElem_cons hlt] at hexec hord
  obtain ⟨⟨result, bs'⟩, hone, hexec⟩ := bind_eq_some_iff.mp hexec
  obtain ⟨⟨rs', bsEnd'⟩, hmore, heq⟩ := map_eq_some_iff.mp hexec
  cases heq
  obtain ⟨hdb', r, st, hbody, houtcome⟩ := executeOne_spec (hdb ▸ h.before) hord.1 hone
  rw [hview] at hbody houtcome
  refine ⟨r, st, result, bs', hview ▸ hord.1, hbody, ?_, hdb'.trans hdb, rs', hmore, hord.2 result bs' hone, ?_⟩
  · rcases houtcome with herror | ⟨r', x, st', hr, hfin, hresult, hfit, hmerged, hflat⟩
    · exact .inl herror
    · exact .inr ⟨r', x, st', hr, hfin, hresult, hfit.congr hview.symm hdb.symm rfl rfl, hmerged, hflat⟩
  · rw [append_assoc]
    exact hress

variable {bs' bs₁ bs : BlockState} {phase : Phase ε ρ τ} {r : Except ε ρ} {st : State} {result : Except ε τ}

section

variable (h : Invariant env txs results bsEnd m)

include h

/-- A question has been answered, and the transaction that asked has gone on. -/
theorem Invariant.read {j : Nat} (hj : m.results.length ≤ j) (hg : m.bs.Grown bs') (htx : txs[j]? = some tx)
    (hphase : PhaseOk env j tx bs' (m.results.length = j) phase) :
    Invariant env txs results bsEnd { m.setPhase j phase with bs := bs' } := by
  constructor
  case before =>
    rw [show ({ m.setPhase j phase with bs := bs' } : Machine ε ρ τ).bs.db = m.bs.db from hg.db_eq]
    exact h.before
  case ended =>
    intro k hk
    show update m.phases j phase k = .ended
    rw [update_of_ne (Nat.ne_of_lt (Nat.lt_of_lt_of_le hk hj))]
    exact h.ended k hk
  case phases =>
    intro k tx' htx' hk
    show PhaseOk env k tx' bs' _ (update m.phases j phase k)
    rcases eq_or_ne k j with rfl | hne
    · rw [update_self]
      obtain rfl : tx = tx' := Option.some.inj (htx.symm.trans htx')
      exact hphase
    · rw [update_of_ne hne]
      exact (h.phases k tx' htx' hk).grown hg
  case rest =>
    obtain ⟨bs, rs, hdb, hview, hexec, hord, hress⟩ := h.rest
    exact ⟨bs, rs, hdb.trans hg.db_eq.symm, hview.trans hg.view_eq.symm, hexec, hord, hress⟩

theorem Invariant.setPhase (htx : txs[m.results.length]? = some tx)
    (hphase : PhaseOk env m.results.length tx m.bs (m.results.length = m.results.length) phase) :
    Invariant env txs results bsEnd (m.setPhase m.results.length phase) :=
  h.read (Nat.le_refl _) (.refl m.bs) htx hphase

section

variable (hturn : Turn env txs results bsEnd m tx r st result bs₁)

include hturn

/-- The transaction whose turn it was is through. -/
theorem Invariant.conclude (hdb : bs'.db = m.bs.db) (hview : bs'.view = bs₁.view)
    (hrem : ∀ e, Remembered m.bs e → Remembered bs' e) :
    Invariant env txs results bsEnd ({ m with bs := bs' }.conclude m.results.length result) := by
  have hlen : ({ m with bs := bs' }.conclude m.results.length result).results.length =
      m.results.length + 1 := length_append
  constructor
  case before =>
    show bs'.db.Before env.number
    rw [hdb]
    exact h.before
  case ended =>
    intro k hk
    show update m.phases m.results.length .ended k = .ended
    rcases eq_or_ne k m.results.length with rfl | hne
    · exact update_self ..
    rw [update_of_ne hne]
    exact h.ended k (by omega)
  case phases =>
    intro k tx' htx' hk
    show PhaseOk env k tx' bs' _ (update m.phases m.results.length .ended k)
    rw [update_of_ne (by omega)]
    exact (h.phases k tx' htx' (by omega)).later (by omega) hrem
  case rest =>
    obtain ⟨rs, hexec, hord, hress⟩ := hturn.rest
    rw [hlen]
    exact ⟨bs₁, rs, hturn.db.trans hdb.symm, hview.symm, hexec, hord, hress⟩

/-- An attempt that has done what the transaction does on the present contents. -/
theorem Invariant.proceed {st₂ : State} (htx : txs[m.results.length]? = some tx) (hpre : Preloaded m.bs.view st st₂)
    (hstock : Stocked m.bs st₂) : Invariant env txs results bsEnd (m.proceed env tx m.results.length r st₂) := by
  rcases hturn.outcome with ⟨e, rfl, hresult, hview⟩ | ⟨r', x, st', rfl, -⟩
  · subst hresult
    exact h.conclude hturn rfl hview.symm fun _ he => he
  · exact h.setPhase htx ⟨rfl, r', st, st₂, hturn.body, hpre, hstock, .refl _ _⟩

end

end

/-- A second attempt that has returned has done what the transaction does on the present contents, and
passes the comparison. -/
theorem Turn.retry {r₀ : Except ε ρ} {st0 : State} (hturn : Turn env txs results bsEnd m tx r₀ st0 result bs₁)
    (h : Present m.bs (tx.body.run env.keccak (env.fresh m.results.length)) (.done (r, st))) :
    r = r₀ ∧ st = st0 ∧ m.bs.canMerge st = some (true, st) ∧ Stocked m.bs st := by
  have hrun := h.answer_eq.symm.trans hturn.body
  cases hrun
  obtain ⟨tr, hss, hv, hn⟩ := h
  have hch := (run_ends env.keccak tx.body hturn.orderly.body).of_steps hss hv
  have hhon : Honest m.bs.view ([] ++ tr) st :=
    Honest.changes (fun _ h => h) (Honest.fresh _ (env.incarnation _) false) hch hv
  refine ⟨rfl, rfl, canMerge_of_passes fun a o ho => hhon.passes hn hv ho, ?_⟩
  exact (Stocked.fresh m.bs env _).changes hch fun e he => remembered_of_noted (hv e he) (hn e he)

/-- A final part that has returned: the state that is merged has the records and the codes it has when the
transactions are executed one after the other. -/
theorem Turn.finish {r₁ : ρ} {st1 st₂ st' : State} {x : τ} (hturn : Turn env txs results bsEnd m tx r st result bs₁)
    (hbody : (tx.body.run env.keccak (env.fresh m.results.length)).answer m.bs.view.answer = some (.ok r₁, st1))
    (hpre : Preloaded m.bs.view st1 st₂) (h : Present m.bs (tx.finish env r₁ st₂) (.done (x, st'))) :
    result = .ok x ∧ m.bs.Fitting st' ∧ bs₁.view = m.bs.view.merge st' ∧
      ∀ a s, st'.current.lookup a = some s → s.below = [] ∧ s.version = 0 := by
  have hsame := hturn.body.symm.trans hbody
  cases hsame
  rcases hturn.outcome with ⟨e, he, -⟩ | ⟨r', x0, st0, hr, hfin, hresult, hfit, hview, hflat⟩
  · cases he
  cases hr
  obtain ⟨st₂', hfin2, hpre'⟩ := follows_finish env tx r₁ _ _ _ _ hpre hfin
  have heq := h.answer_eq.symm.trans hfin2
  cases heq
  refine ⟨hresult, hfit.congr rfl rfl hpre'.current hpre'.code, ?_, ?_⟩
  · rw [hview, View.merge_congr _ hpre'.current hpre'.code]
  rw [hpre'.current]
  exact hflat

/-! ## Every step keeps the invariant -/

theorem Invariant.step (h : Invariant env txs results bsEnd m) {j : Nat}
    (hstep : m.step env txs j = some m') : Invariant env txs results bsEnd m' := by
  unfold Machine.step at hstep
  cases htx : txs[j]? with
  | none => simp [htx] at hstep
  | some tx =>
    simp only [htx] at hstep
    have hj : m.results.length ≤ j := by
      refine Nat.le_of_not_lt fun hlt => ?_
      rw [h.ended j hlt] at hstep
      cases hstep
    have hphase := h.phases j tx htx hj
    -- a question, in whatever phase, changes nothing but the one who asks
    have hread : ∀ {q : Query} {next : q.Answer → Phase ε ρ τ}, m.read j q next = some m' →
        (∀ y bs', m.bs.answer q = some (y, bs') → PhaseOk env j tx bs' (m.results.length = j) (next y)) →
        Invariant env txs results bsEnd m' := by
      intro q next hq hnext
      obtain ⟨⟨y, bs'⟩, hans, rfl⟩ := map_eq_some_iff.mp hq
      exact h.read hj (answer_spec hans).2 htx (hnext y bs' hans)
    cases hp : m.phases j with
    | first t =>
      rw [hp] at hstep hphase
      cases t with
      | ask q next => exact hread hstep fun y bs' hq => FirstOk.ask hphase hq
      | fail => cases hstep
      | done y =>
        obtain ⟨r, st⟩ := y
        split_ifs at hstep with hturn
        subst hturn
        have hfst : FirstOk env m.results.length tx m.bs (.done (r, st)) := hphase
        obtain ⟨r₀, st0, result, bs₁, hdue⟩ := h.turn htx
        cases hmerge : m.bs.canMerge st with
        | none => simp [hmerge] at hstep
        | some y =>
          obtain ⟨b, st₂⟩ := y
          cases b with
          | true =>
            simp only [hmerge, Option.some.injEq] at hstep
            subst hstep
            obtain ⟨rfl, rfl, hpre⟩ := hfst.accept hmerge hdue.orderly hdue.body
            exact h.proceed hdue htx hpre hfst.done.1
          | false =>
            simp only [hmerge, Option.some.injEq] at hstep
            subst hstep
            exact h.setPhase htx ⟨rfl, .refl _ _⟩
    | retry t =>
      rw [hp] at hstep hphase
      obtain ⟨rfl, hpres⟩ := hphase
      cases t with
      | ask q next => exact hread hstep fun y bs' hq => ⟨rfl, hpres.ask hq⟩
      | fail => cases hstep
      | done y =>
        obtain ⟨r₀, st0, result, bs₁, hdue⟩ := h.turn htx
        obtain ⟨rfl, rfl, hmerge, hstock⟩ := hdue.retry hpres
        simp only [hmerge, Option.some.injEq] at hstep
        subst hstep
        exact h.proceed hdue htx (.refl _ _) hstock
    | finish t =>
      rw [hp] at hstep hphase
      obtain ⟨rfl, r₁, st1, st₂, hbody, hpre, hstock, hpres⟩ := hphase
      cases t with
      | ask q next =>
        refine hread hstep fun y bs' hq => ?_
        have hg := (answer_spec hq).2
        refine ⟨rfl, r₁, st1, st₂, ?_, ?_, hstock.grown hg, hpres.ask hq⟩
        · rw [hg.view_eq]
          exact hbody
        · rw [hg.view_eq]
          exact hpre
      | fail => cases hstep
      | done y =>
        obtain ⟨bs', hmerge, rfl⟩ := map_eq_some_iff.mp hstep
        obtain ⟨r₀, st0, result, bs₁, hdue⟩ := h.turn htx
        obtain ⟨rfl, hfit, hview, -⟩ := hdue.finish hbody hpre hpres
        obtain ⟨-, -, hdb, -⟩ := deltas_merge hmerge
        have hview' : bs'.view = bs₁.view := (view_merge hfit hmerge).trans hview.symm
        exact h.conclude hdue hdb hview' fun e he => he.merge hfit hmerge
    | ended =>
      rw [hp] at hphase
      exact hphase.elim

theorem Invariant.run (h : Invariant env txs results bsEnd m) {schedule : List Nat}
    (hrun : m.run env txs schedule = some m') : Invariant env txs results bsEnd m' := by
  induction schedule generalizing m with
  | nil =>
    cases hrun
    exact h
  | cons j schedule ih =>
    obtain ⟨m1, hstep, hrun⟩ := bind_eq_some_iff.mp hrun
    exact ih (h.step hstep) hrun

theorem Invariant.start {db : Db} (hdb : db.Before env.number)
    (hexec : executeAll env 0 txs (.start db) = some (results, bsEnd)) (hord : Orderly env 0 txs (.start db)) :
    Invariant env txs results bsEnd (Machine.start env txs db) where
  before := hdb
  ended j hj := absurd hj (Nat.not_lt_zero j)
  phases j tx htx _ := by
    simp only [Machine.start, htx]
    exact .inl rfl
  rest := ⟨.start db, results, rfl, rfl, hexec, hord, rfl⟩

/-! ## No transaction is ever stuck -/

/-- Without relaxed validation `can_merge` fails no assertion, if there are entries for all originals. -/
theorem exists_canMerge (hstock : Stocked bs st) (hstr : st.relaxedValidation = false) :
    ∃ b st', bs.canMerge st = some (b, st') := by
  have hfrom : ∀ l : List (Σ _ : Address, OriginalAccountState),
      (∀ e ∈ l, st.original.lookup e.1 = some e.2) → ∃ b st', bs.canMergeFrom l st = some (b, st') := by
    intro l
    induction l with
    | nil => exact fun _ => ⟨true, st, rfl⟩
    | cons e l ih =>
      intro hl
      obtain ⟨a, o⟩ := e
      have ho := hl ⟨a, o⟩ mem_cons_self
      obtain ⟨d, hd⟩ := hstock.entry a o ho
      unfold BlockState.canMergeFrom
      simp only [hd]
      by_cases hacc : o.account = d.account.2
      · simp only [if_pos hacc]
        split_ifs
        · exact ih fun e he => hl e (mem_cons_of_mem _ he)
        · exact ⟨false, st, rfl⟩
      simp only [if_neg hacc]
      have hfix : st.tryFixAccountMismatch a d.account.2 = some (false, st) := by
        unfold State.tryFixAccountMismatch
        simp only [ho, hstr]
        cases hx : o.account with
        | none => rfl
        | some x =>
          cases hy : d.account.2 with
          | none => rfl
          | some y =>
            have hne : x ≠ y := by
              rintro rfl
              exact hacc (hx.trans hy.symm)
            have hbal : x.codeHash = y.codeHash → x.incarnation = y.incarnation →
                x.nonce = y.nonce → x.balance ≠ y.balance := by
              intro h1 h2 h3 h4
              exact hne (by cases x; cases y; simp_all)
            simp only [Bool.not_false, if_true]
            split_ifs <;> first | rfl | (exfalso; simp_all)
      simp only [hfix]
      exact ⟨false, st, rfl⟩
  exact hfrom st.original.entries fun e he => AList.mem_lookup_iff.mpr he

/-- A flat state with entries for its records can be merged. -/
theorem exists_merge
    (h : ∀ a s, st.current.lookup a = some s → (s.below = [] ∧ s.version = 0) ∧ ∃ d, bs.deltas.lookup a = some d) :
    ∃ bs', bs.merge st = some bs' := by
  refine ⟨_, if_pos ?_⟩
  rw [Table.all_iff]
  intro a s hs
  obtain ⟨⟨hbel, hver⟩, d, hd⟩ := h a s hs
  simp [hbel, hver, hd]

theorem Invariant.exists_step (h : Invariant env txs results bsEnd m) (htx : txs[m.results.length]? = some tx) :
    (∃ m', m.step env txs m.results.length = some m') ∨ m.phases m.results.length = .first .fail := by
  have hphase := h.phases m.results.length tx htx (Nat.le_refl _)
  obtain ⟨r₀, st0, result, bs₁, hdue⟩ := h.turn htx
  have hread : ∀ (q : Query) (next : q.Answer → Phase ε ρ τ),
      (∃ y bs', m.bs.answer q = some (y, bs')) → ∃ m', m.read m.results.length q next = some m' := by
    rintro q next ⟨y, bs', hq⟩
    exact ⟨_, by rw [Machine.read, hq]; rfl⟩
  unfold Machine.step
  simp only [htx]
  cases hp : m.phases m.results.length with
  | first t =>
    rw [hp] at hphase
    cases t with
    | ask q next => exact .inl (hread q _ (FirstOk.answer hphase))
    | fail => exact .inr rfl
    | done y =>
      obtain ⟨hstock, hstr⟩ := FirstOk.done hphase
      obtain ⟨b, st', hmerge⟩ := exists_canMerge hstock hstr
      left
      cases b <;> simp [hmerge]
  | retry t =>
    rw [hp] at hphase
    obtain ⟨-, hpres⟩ := hphase
    left
    cases t with
    | ask q next =>
      obtain ⟨tr, hss, hrem⟩ := hpres.remembered
      obtain ⟨st, hch, hfits⟩ := (run_leads env.keccak tx.body _).of_steps_ask hss fun _ _ => trivial
      exact hread q _ (((Stocked.fresh m.bs env _).changes hch hrem).answer hfits)
    | fail =>
      have hfail := hpres.answer_eq.symm.trans hdue.body
      cases hfail
    | done y =>
      obtain ⟨-, -, hmerge, -⟩ := hdue.retry hpres
      simp [hmerge]
  | finish t =>
    rw [hp] at hphase
    obtain ⟨-, r₁, st1, st₂, hbody, hpre, hstock, hpres⟩ := hphase
    obtain ⟨tr, hss, hrem⟩ := hpres.remembered
    left
    cases t with
    | ask q next =>
      obtain ⟨st, hch, hfits⟩ := (finish_leads env tx r₁ st₂).of_steps_ask hss fun _ _ => trivial
      exact hread q _ ((hstock.changes hch hrem).answer hfits)
    | fail =>
      have hsame := hdue.body.symm.trans hbody
      cases hsame
      rcases hdue.outcome with ⟨e, he, -⟩ | ⟨r', x0, st', hr, hfin, -⟩
      · cases he
      cases hr
      obtain ⟨st₂', hfin2, -⟩ := follows_finish env tx r₁ _ _ _ _ hpre hfin
      have hfail := hpres.answer_eq.symm.trans hfin2
      cases hfail
    | done y =>
      obtain ⟨x, st'⟩ := y
      obtain ⟨-, -, -, hflat⟩ := hdue.finish hbody hpre hpres
      obtain ⟨st, hch, htrim⟩ := (finish_leads env tx r₁ st₂).of_steps hss fun _ _ => trivial
      have hend := hstock.changes hch hrem
      have hmerges : ∃ bs', m.bs.merge st' = some bs' := by
        refine exists_merge fun a s' hs' => ?_
        obtain ⟨s, hs, -⟩ := htrim.current a s' hs'
        obtain ⟨o, ho⟩ := hend.loaded a s hs
        exact ⟨hflat a s' hs', hend.entry a o ho⟩
      obtain ⟨bs', hmerge⟩ := hmerges
      simp [hmerge]
  | ended =>
    rw [hp] at hphase
    exact hphase.elim

end Invariant

/-! ## The theorem -/

/-- **Parallel execution is serial.** Let the transactions of a block, executed and merged one after the
other, all get through, and let them keep to the rule of `View.rule` there; let no account of the
database be in a life of this block. Then a machine that has brought all transactions through, on
whatever schedule, has the results of that execution and a block state with the same contents; and at
every moment before, the transaction whose turn it is can go on, unless its first attempt has failed an
assertion of its own. -/
theorem parallel_eq_sequential (env : Environment) (txs : List (Transaction ε ρ τ)) (db : Db)
    (results : List (Except ε τ)) (bs : BlockState) (hdb : db.Before env.number)
    (hexec : executeAll env 0 txs (.start db) = some (results, bs)) (hord : Orderly env 0 txs (.start db))
    (schedule : List Nat) (m : Machine ε ρ τ) (hrun : (Machine.start env txs db).run env txs schedule = some m) :
    (m.results.length = txs.length → m.results = results ∧ m.bs.view = bs.view) ∧
    (m.results.length < txs.length → (∃ m', m.step env txs m.results.length = some m') ∨
      m.phases m.results.length = .first .fail) := by
  have h : Invariant env txs results bs m := (Invariant.start hdb hexec hord).run hrun
  constructor
  · intro hlen
    obtain ⟨bs0, rs, -, hview, hrest, -, hress⟩ := h.rest
    rw [hlen, drop_length] at hrest
    cases hrest
    rw [append_nil] at hress
    exact ⟨hress, hview.symm⟩
  · intro hlt
    exact h.exists_step (List.getElem?_eq_getElem hlt)

/-! ## A block with a conflict, and one that breaks the rule -/

/-- Account 1 has a slot, and accounts 3 and 4 send transactions. -/
def twoSenders (account : Account) : Db where
  state a := if a = 1#160 then some (account, fun key => if key = 7#256 then 5#256 else 0)
    else if a = 3#160 ∨ a = 4#160 then some ({ balance := 10 }, fun _ => 0)
    else none
  code _ := []

/-- A transaction without an error and without anything to do at the end. -/
def plainTransaction (sender : Address) (body : Program Bytes32) : Transaction Unit Bytes32 Bytes32 where
  sender := sender
  nonce := 0
  body := body >>= fun x => pure (.ok x)
  final := pure

def blockTwo : Environment := { keccak := fun _ => 0, cancun := true, number := 2 }

def readSlot : Program Bytes32 := do
  let _ ← getNonce 1#160
  Program.run1 (.getStorage 1#160 7#256)

/-- Create a contract, and clear the slot of account 1. -/
def clearSlot : Program Bytes32 := do
  createContract 2#160
  let _ ← getNonce 1#160
  let _ ← Program.run1 (.setStorage 1#160 7#256 0#256)
  Program.run1 (.getStorage 1#160 7#256)

/-- The second transaction reads the slot that the first one clears. -/
def clearTransactions : List (Transaction Unit Bytes32 Bytes32) :=
  [plainTransaction 3#160 clearSlot, plainTransaction 4#160 readSlot]

def olderAccount : Account := { nonce := 1, incarnation := ⟨1, 1⟩ }

theorem before_twoSenders (account : Account) (h : account.incarnation.block ≠ 2) :
    (twoSenders account).Before blockTwo.number := by
  intro a y hy
  obtain ⟨z, hz, rfl⟩ := map_eq_some_iff.mp hy
  change (if a = 1#160 then _ else if a = 3#160 ∨ a = 4#160 then _ else none) = some z at hz
  split_ifs at hz
  · cases hz
    exact h
  · cases hz
    show (0 : BitVec 40) ≠ 2
    decide

theorem orderly_clearTransactions : Orderly blockTwo 0 clearTransactions (.start (twoSenders olderAccount)) := by
  refine ⟨⟨⟨fun _ => View.bare_of_none rfl, fun _ _ => ⟨trivial, fun _ _ => ⟨trivial, fun _ _ =>
    ⟨trivial, fun _ _ => trivial⟩⟩⟩⟩, fun _ _ _ => trivial⟩, fun _ bs _ => ⟨⟨?_, fun _ _ _ => trivial⟩,
    fun _ _ _ => trivial⟩⟩
  exact ⟨trivial, fun _ _ => ⟨trivial, fun _ _ => trivial⟩⟩

/-- The second transaction reads the old slot first, and has to run again. -/
theorem parallel_eq_sequential_retried : ∃ m results bs,
    (Machine.start blockTwo clearTransactions (twoSenders olderAccount)).run blockTwo clearTransactions
      [1, 1, 1, 0, 0, 0, 0, 0, 0, 1, 1, 1, 1, 1] = some m ∧
    executeAll blockTwo 0 clearTransactions (.start (twoSenders olderAccount)) = some (results, bs) ∧
    m.results = results ∧ m.bs.view = bs.view := by
  have hm : ((Machine.start blockTwo clearTransactions (twoSenders olderAccount)).run blockTwo
      clearTransactions [1, 1, 1, 0, 0, 0, 0, 0, 0, 1, 1, 1, 1, 1]).map (·.results.length) = some 2 := by
    decide +kernel
  obtain ⟨m, hrun, hlen⟩ := map_eq_some_iff.mp hm
  have hexec : (executeAll blockTwo 0 clearTransactions (.start (twoSenders olderAccount))).isSome = true := by
    decide +kernel
  obtain ⟨⟨results, bs⟩, hexec⟩ := isSome_iff_exists.mp hexec
  have hboth := (parallel_eq_sequential blockTwo clearTransactions (twoSenders olderAccount) results bs
    (before_twoSenders _ (by decide)) hexec orderly_clearTransactions _ m hrun).1 hlen
  exact ⟨m, results, bs, hrun, hexec, hboth⟩

/-- Give account 1 a new life. -/
def recreate : Program Bytes32 := do
  createContract 1#160
  Program.run1 (.getStorage 1#160 7#256)

def recreateTransactions : List (Transaction Unit Bytes32 Bytes32) :=
  [plainTransaction 3#160 recreate, plainTransaction 4#160 readSlot]

/-- The same schedule when the first transaction creates a contract at an address that has storage: the
slot that the second transaction has read in its first attempt is found again in the second, although the
account is in a new life. One after the other, the slot reads as zero. -/
theorem parallel_ne_sequential :
    ((Machine.start blockTwo recreateTransactions (twoSenders { incarnation := ⟨1, 1⟩ })).run blockTwo
      recreateTransactions [1, 1, 1, 0, 0, 0, 0, 1, 1, 1, 1, 1]).map (·.results) = some [.ok 0, .ok 5] ∧
    (executeAll blockTwo 0 recreateTransactions (.start (twoSenders { incarnation := ⟨1, 1⟩ }))).map
      Prod.fst = some [.ok 0, .ok 0] := by constructor <;> decide +kernel

end MonadExecution.Ethereum
