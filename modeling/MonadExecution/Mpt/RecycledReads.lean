import MonadExecution.Mpt.Recycling
import Mathlib.Order.Basic

/-!
# Which buffers are right

While a version is valid, the chunks of its nodes stay on their lists, so a translation that is followed by a
check of the version is the one the node was written under. A buffer whose translation is the same after the
read was read from the right life of the chunk; it is wrong exactly when one of its pages was read after
`destroy_contents` and before `append_`.
-/

namespace MonadExecution.Recycling

open Function List Option

variable {B Node Key Result ι : Type} {m : Format B Node Key Result} {d d' : Disk B} {page : Nat → Option B}
  {o : Offset} {c v : Nat} {t : Trie B}

theorem read_congr {page' : Nat → Option B} (h : ∀ i, i < o.pages → page (o.page + i) = page' (o.page + i)) :
    read page o = read page' o :=
  map_congr_left fun i hi => h i (mem_range.mp hi)

theorem read_length (page : Nat → Option B) (o : Offset) : (read page o).length = o.pages := by
  unfold read
  rw [length_map, length_range]

theorem none_notMem_read : none ∉ read page o ↔ ∀ i, i < o.pages → page (o.page + i) ≠ none := by
  unfold read
  simp only [List.mem_map, mem_range, not_exists, not_and]

/-! ## The writer -/

/-- What holds of the pool after any steps of the writer. -/
structure Disk.Ok (m : Format B Node Key Result) (d : Disk B) : Prop where
  info_some : ∀ c, d.phase c ≠ .free → ∃ l, d.info c = some l
  info_free : ∀ c, d.phase c = .free → d.info c = none
  page_eq : ∀ c l, d.info c = some l → d.phase c ≠ .destroyed → d.page c = d.written l
  page_gone : ∀ c, d.phase c = .destroyed ∨ d.phase c = .free → d.page c = fun _ => none
  count_lt : ∀ c l, d.info c = some l → l.insertionCount < d.nextCount l.list
  written_lt : ∀ l p, d.written l p ≠ none → l.insertionCount < d.nextCount l.list
  lives : ∀ c c' l, d.info c = some l → d.info c' = some l → c = c'
  tries : ∀ v, ∀ t ∈ d.tries v, t.reach t.root ∧ t.Closed m ∧ ∀ o, t.reach o → none ∉ t.buffer o
  root : ∀ v root, d.ring v = some root → ∃ t ∈ d.tries v, t.root = root
  stored : ∀ v t o, d.ring v ≠ none → t ∈ d.tries v → t.reach o →
    d.phase o.chunk = .listed ∧ read (d.page o.chunk) o = t.buffer o

/-- What a step of the writer leaves to the readers. -/
structure Disk.Keeps (d d' : Disk B) : Prop where
  tries : ∀ v, ∀ t ∈ d.tries v, t ∈ d'.tries v
  ring : ∀ v, ∀ t ∈ d.tries v, d'.ring v ≠ none → d.ring v ≠ none
  written : ∀ l p b, d.written l p = some b → d'.written l p = some b
  count : ∀ list, d.nextCount list ≤ d'.nextCount list
  life : ∀ c l, l.insertionCount < d.nextCount l.list → d'.info c = some l → d.info c = some l
  listed : ∀ c, d.phase c = .listed → d'.info c = d.info c

theorem Disk.Keeps.refl (d : Disk B) : d.Keeps d where
  tries _ _ h := h
  ring _ _ _ h := h
  written _ _ _ h := h
  count _ := Nat.le_refl _
  life _ _ _ h := h
  listed _ _ := rfl

theorem ne_of_listed {c' : Nat} (hlst : d.phase c' = .listed) (hphase : d.phase c ≠ .listed) : c' ≠ c := by
  rintro rfl
  exact hphase hlst

theorem WriterStep.keeps (hok : d.Ok m) (h : WriterStep m d d') : d.Keeps d' := by
  cases h with
  | write b hphase hinfo hp =>
    rename_i c p l
    refine { Disk.Keeps.refl d with written := ?_ }
    intro l' p' b' hw
    dsimp only
    by_cases hl : l' = l
    · subst hl
      rw [update_self]
      by_cases hp' : p' = p
      · subst hp'
        rw [← hok.page_eq c l' hinfo (by rw [hphase]; decide), hp] at hw
        cases hw
      · rw [update_of_ne hp', hw]
    · rw [update_of_ne hl, hw]
  | publish hagain hroot hclosed hstored =>
    rename_i v t
    refine { Disk.Keeps.refl d with tries := ?_, ring := ?_ }
    · intro v' t' ht
      dsimp only
      by_cases hv : v' = v
      · subst hv
        rw [update_self]
        exact mem_cons_of_mem _ ht
      · rwa [update_of_ne hv]
    · intro v' t' ht hring
      dsimp only at hring
      by_cases hv : v' = v
      · subst hv
        exact hagain.resolve_left (ne_nil_of_mem ht)
      · rwa [update_of_ne hv] at hring
  | expire v =>
    refine { Disk.Keeps.refl d with ring := ?_ }
    intro v' t' ht hring
    dsimp only at hring
    by_cases hv : v' = v
    · subst hv
      rw [update_self] at hring
      exact absurd rfl hring
    · rwa [update_of_ne hv] at hring
  | remove | destroyContents => exact { Disk.Keeps.refl d with }
  | appendFree hphase =>
    rename_i c
    refine { Disk.Keeps.refl d with life := ?_, listed := ?_ }
    · intro c' l hle hinfo
      dsimp only at hinfo
      by_cases hc : c' = c
      · subst hc
        rw [update_self] at hinfo
        cases hinfo
      · rwa [update_of_ne hc] at hinfo
    · intro c' hlst
      exact update_of_ne (ne_of_listed hlst (by rw [hphase]; decide)) _ _
  | append list hphase =>
    rename_i c
    refine { Disk.Keeps.refl d with count := ?_, life := ?_, listed := ?_ }
    · intro list'
      dsimp only
      by_cases hl : list' = list
      · subst hl
        rw [update_self]
        exact Nat.le_succ _
      · simp only [update_of_ne hl, Nat.le_refl]
    · -- the new life has a higher count than every life before
      intro c' l hle hinfo
      dsimp only at hinfo
      by_cases hc : c' = c
      · subst hc
        rw [update_self] at hinfo
        cases hinfo
        dsimp only at hle
        omega
      · rwa [update_of_ne hc] at hinfo
    · intro c' hlst
      exact update_of_ne (ne_of_listed hlst (by rw [hphase]; decide)) _ _

section

variable (hok : d.Ok m)

include hok

theorem Disk.Ok.write {p : Nat} {l : Life} (b : B) (hphase : d.phase c = .listed) (hinfo : d.info c = some l)
    (hp : d.page c p = none) :
    Disk.Ok m
      { d with
        page := update d.page c (update (d.page c) p (some b))
        written := update d.written l (update (d.written l) p (some b)) } := by
  have hpage := hok.page_eq c l hinfo (by rw [hphase]; decide)
  refine { hok with page_eq := ?_, page_gone := ?_, written_lt := ?_, stored := ?_ }
  · intro c' l' hinfo' hph'
    dsimp only at hinfo' hph' ⊢
    by_cases hc : c' = c
    · subst hc
      rw [hinfo] at hinfo'
      cases hinfo'
      rw [update_self, update_self, hpage]
    · have hl : l' ≠ l := fun heq => hc (hok.lives c' c l (heq ▸ hinfo') hinfo)
      rw [update_of_ne hc, update_of_ne hl]
      exact hok.page_eq c' l' hinfo' hph'
  · intro c' hgone
    dsimp only at hgone ⊢
    have hc : c' ≠ c := by
      rintro rfl
      rw [hphase] at hgone
      simp at hgone
    rw [update_of_ne hc]
    exact hok.page_gone c' hgone
  · intro l' p' hw
    dsimp only at hw ⊢
    by_cases hl : l' = l
    · rw [hl]
      exact hok.count_lt c l hinfo
    · rw [update_of_ne hl] at hw
      exact hok.written_lt l' p' hw
  · intro v t o hvalid ht ho
    obtain ⟨hlst, hread⟩ := hok.stored v t o hvalid ht ho
    refine ⟨hlst, ?_⟩
    have hfull := (hok.tries v t ht).2.2 o ho
    rw [← hread] at hfull ⊢
    -- the page that is written was not one of the node
    refine read_congr fun i hi => ?_
    dsimp only
    by_cases hc : o.chunk = c
    · rw [hc] at hfull ⊢
      rw [update_self, update_of_ne]
      rintro rfl
      exact none_notMem_read.mp hfull i hi hp
    · rw [update_of_ne hc]

theorem Disk.Ok.publish (hagain : d.tries v = [] ∨ d.ring v ≠ none) (hroot : t.reach t.root) (hclosed : t.Closed m)
    (hstored : ∀ o, t.reach o →
      d.phase o.chunk = .listed ∧ read (d.page o.chunk) o = t.buffer o ∧ none ∉ t.buffer o) :
    Disk.Ok m
      { d with
        ring := update d.ring v (some t.root)
        tries := update d.tries v (t :: d.tries v) } := by
  refine { hok with tries := ?_, root := ?_, stored := ?_ }
  · intro v' t' ht
    dsimp only at ht
    by_cases hv : v' = v
    · subst hv
      rw [update_self] at ht
      rcases mem_cons.mp ht with rfl | ht
      · exact ⟨hroot, hclosed, fun o ho => (hstored o ho).2.2⟩
      · exact hok.tries v' t' ht
    · rw [update_of_ne hv] at ht
      exact hok.tries v' t' ht
  · intro v' root hring
    dsimp only at hring ⊢
    by_cases hv : v' = v
    · subst hv
      rw [update_self] at hring ⊢
      cases hring
      exact ⟨t, mem_cons_self, rfl⟩
    · rw [update_of_ne hv] at hring ⊢
      exact hok.root v' root hring
  · intro v' t' o hvalid ht ho
    dsimp only at hvalid ht ⊢
    by_cases hv : v' = v
    · subst hv
      rw [update_self] at ht
      rcases mem_cons.mp ht with rfl | ht
      · exact ⟨(hstored o ho).1, (hstored o ho).2.1⟩
      · exact hok.stored v' t' o (hagain.resolve_left (ne_nil_of_mem ht)) ht ho
    · rw [update_of_ne hv] at hvalid ht
      exact hok.stored v' t' o hvalid ht ho

theorem Disk.Ok.expire (v : Nat) : Disk.Ok m { d with ring := update d.ring v none } := by
  have hring : ∀ v', update d.ring v none v' ≠ none → update d.ring v none v' = d.ring v' := by
    intro v' hvalid
    by_cases hv : v' = v
    · rw [hv, update_self] at hvalid
      exact absurd rfl hvalid
    · exact update_of_ne hv _ _
  refine { hok with root := ?_, stored := ?_ }
  · intro v' root hroot
    have hroot : update d.ring v none v' = some root := hroot
    exact hok.root v' root ((hring v' (hroot ▸ some_ne_none root)).symm.trans hroot)
  · intro v' t' o hvalid ht ho
    exact hok.stored v' t' o (hring v' hvalid ▸ hvalid) ht ho

/-- The chunks of a valid version are listed. -/
theorem Disk.Ok.unused (hphase : d.phase c ≠ .listed) :
    ∀ v t, d.ring v ≠ none → t ∈ d.tries v → ∀ o, t.reach o → o.chunk ≠ c :=
  fun v t hvalid ht o ho => ne_of_listed (hok.stored v t o hvalid ht ho).1 hphase

/-- A chunk that no valid version uses goes on to another phase, in the life it had or in a new one. -/
theorem Disk.Ok.set_chunk (phase : Phase) (info : Option Life) (page : Nat → Option B) (next : ChunkList → Nat)
    (hunused : ∀ v t, d.ring v ≠ none → t ∈ d.tries v → ∀ o, t.reach o → o.chunk ≠ c)
    (hsome : phase ≠ .free → ∃ l, info = some l) (hfree : phase = .free → info = none)
    (hpage : ∀ l, info = some l → phase ≠ .destroyed → page = d.written l)
    (hgone : phase = .destroyed ∨ phase = .free → page = fun _ => none)
    (hlife : ∀ l, info = some l → d.info c = some l ∨ d.nextCount l.list ≤ l.insertionCount ∧
      l.insertionCount < next l.list)
    (hnext : ∀ list, d.nextCount list ≤ next list) :
    Disk.Ok m
      { d with
        phase := update d.phase c phase
        info := update d.info c info
        page := update d.page c page
        nextCount := next } := by
  have hapart : ∀ c' l, c' ≠ c → d.info c' = some l → info ≠ some l := by
    intro c' l hc hl hl'
    rcases hlife l hl' with hold | ⟨hnew, -⟩
    · exact hc (hok.lives c' c l hl hold)
    · exact absurd (hok.count_lt c' l hl) (Nat.not_lt.mpr hnew)
  constructor
  case info_some =>
    intro c'
    by_cases hc : c' = c
    · simpa only [hc, update_self] using hsome
    · simpa only [update_of_ne hc] using hok.info_some c'
  case info_free =>
    intro c'
    by_cases hc : c' = c
    · simpa only [hc, update_self] using hfree
    · simpa only [update_of_ne hc] using hok.info_free c'
  case page_eq =>
    intro c'
    by_cases hc : c' = c
    · simpa only [hc, update_self] using hpage
    · simpa only [update_of_ne hc] using hok.page_eq c'
  case page_gone =>
    intro c'
    by_cases hc : c' = c
    · simpa only [hc, update_self] using hgone
    · simpa only [update_of_ne hc] using hok.page_gone c'
  case count_lt =>
    intro c' l hl
    by_cases hc : c' = c
    · simp only [hc, update_self] at hl
      rcases hlife l hl with hold | ⟨-, hnew⟩
      · exact Nat.lt_of_lt_of_le (hok.count_lt c l hold) (hnext _)
      · exact hnew
    · simp only [update_of_ne hc] at hl
      exact Nat.lt_of_lt_of_le (hok.count_lt c' l hl) (hnext _)
  case written_lt => exact fun l p hw => Nat.lt_of_lt_of_le (hok.written_lt l p hw) (hnext _)
  case lives =>
    intro c1 c2 l h1 h2
    by_cases hc1 : c1 = c <;> by_cases hc2 : c2 = c
    · exact hc1.trans hc2.symm
    · simp only [hc1, update_self, update_of_ne hc2] at h1 h2
      exact absurd h1 (hapart c2 l hc2 h2)
    · simp only [hc2, update_self, update_of_ne hc1] at h1 h2
      exact absurd h2 (hapart c1 l hc1 h1)
    · simp only [update_of_ne hc1, update_of_ne hc2] at h1 h2
      exact hok.lives c1 c2 l h1 h2
  case tries => exact hok.tries
  case root => exact hok.root
  case stored =>
    intro v t o hvalid ht ho
    have hc := hunused v t hvalid ht o ho
    simpa only [update_of_ne hc] using hok.stored v t o hvalid ht ho

theorem Disk.Ok.remove (hphase : d.phase c = .listed)
    (hunused : ∀ v t, d.ring v ≠ none → t ∈ d.tries v → ∀ o, t.reach o → o.chunk ≠ c) :
    (d.setPhase c .removed).Ok m := by
  have h := hok.set_chunk .removed (d.info c) (d.page c) d.nextCount hunused
    (fun _ => hok.info_some c (by rw [hphase]; decide)) (by rintro ⟨⟩)
    (fun l hl _ => hok.page_eq c l hl (by rw [hphase]; decide)) (by rintro (h | h) <;> cases h) (fun _ => .inl)
    fun _ => Nat.le_refl _
  rwa [update_eq_self, update_eq_self] at h

theorem Disk.Ok.destroyContents (hphase : d.phase c = .removed) :
    Disk.Ok m { d.setPhase c .destroyed with page := update d.page c fun _ => none } := by
  have h := hok.set_chunk .destroyed (d.info c) (fun _ => none) d.nextCount (hok.unused (by rw [hphase]; decide))
    (fun _ => hok.info_some c (by rw [hphase]; decide)) (by rintro ⟨⟩) (fun _ _ hne => absurd rfl hne) (fun _ => rfl)
    (fun _ => .inl) fun _ => Nat.le_refl _
  rwa [update_eq_self] at h

theorem Disk.Ok.appendFree (hphase : d.phase c = .destroyed) :
    Disk.Ok m { d.setPhase c .free with info := update d.info c none } := by
  have h := hok.set_chunk .free none (d.page c) d.nextCount (hok.unused (by rw [hphase]; decide))
    (fun hne => absurd rfl hne) (fun _ => rfl) (by rintro _ ⟨⟩) (fun _ => hok.page_gone c (.inl hphase))
    (by rintro _ ⟨⟩) fun _ => Nat.le_refl _
  rwa [update_eq_self] at h

theorem Disk.Ok.append (list : ChunkList) (hphase : d.phase c = .free) : Disk.Ok m
    { d.setPhase c .listed with
      info := update d.info c (some ⟨list, d.nextCount list⟩)
      nextCount := update d.nextCount list (d.nextCount list + 1) } := by
  have h := hok.set_chunk .listed (some ⟨list, d.nextCount list⟩) (d.page c)
    (update d.nextCount list (d.nextCount list + 1)) (hok.unused (by rw [hphase]; decide)) (fun _ => ⟨_, rfl⟩)
    (by rintro ⟨⟩) (fun l hl _ => ?_) (by rintro (h | h) <;> cases h) (fun l hl => ?_) fun list' => ?_
  · rwa [update_eq_self] at h
  · cases hl
    -- nothing is written in the new life
    refine (hok.page_gone c (.inr hphase)).trans (funext fun p => ?_)
    by_contra hw
    exact Nat.lt_irrefl _ (hok.written_lt _ p (Ne.symm hw))
  · cases hl
    exact .inr ⟨Nat.le_refl _, Nat.lt_of_lt_of_eq (Nat.lt_succ_self _) (update_self list _ d.nextCount).symm⟩
  · by_cases hl : list' = list
    · rw [hl, update_self]
      exact Nat.le_succ _
    · exact Nat.le_of_eq (update_of_ne hl _ _).symm

theorem WriterStep.ok (h : WriterStep m d d') : d'.Ok m := by
  cases h with
  | write b hphase hinfo hp => exact hok.write b hphase hinfo hp
  | publish hagain hroot hclosed hstored => exact hok.publish hagain hroot hclosed hstored
  | expire v => exact hok.expire v
  | remove hphase _ hunused => exact hok.remove hphase hunused
  | destroyContents hphase => exact hok.destroyContents hphase
  | appendFree hphase => exact hok.appendFree hphase
  | append list hphase => exact hok.append list hphase

end

/-- A page that was written stays as it is. -/
theorem Disk.Keeps.read_eq (hk : d.Keeps d') {l : Life} (hfull : none ∉ read (d.written l) o) :
    read (d'.written l) o = read (d.written l) o := by
  refine read_congr fun i hi => ?_
  obtain ⟨b, hb⟩ := ne_none_iff_exists'.mp (none_notMem_read.mp hfull i hi)
  rw [hb]
  exact hk.written l _ b hb

/-! ## The readers -/

/-- A lookup with the root of the trie that comes from the node ends with what the trie holds under its key. -/
def Trie.Leads (m : Format B Node Key Result) (t : Trie B) (j : Job Key) (o : Offset) : Prop :=
  t.root = j.root ∧ t.reach o ∧ ∀ r, t.Finds m o j.rest r → t.Finds m t.root j.wanted r

/-- The pages so far are those of the node, unless the chunk is another one by now. -/
structure ReadOk (d : Disk B) (t : Trie B) (o : Offset) (l : Life) (got : List (Option B)) (window : Bool) :
    Prop where
  count_lt : l.insertionCount < d.nextCount l.list
  written : read (d.written l) o = t.buffer o
  full : none ∉ t.buffer o
  length_le : got.length ≤ o.pages
  in_window : window = true → none ∈ got
  same : window = false → d.info o.chunk = some l → got = (t.buffer o).take got.length

/-- What holds of a lookup as long as no wrong buffer was taken. -/
def Lookup.Ok (m : Format B Node Key Result) (d : Disk B) : Lookup B Node Key → Prop
  | .idle => True
  | .target j o => ∃ t ∈ d.tries j.version, t.Leads m j o
  | .translated j o l =>
    ∃ t ∈ d.tries j.version, t.Leads m j o ∧ (d.ring j.version ≠ none → l = d.info o.chunk)
  | .reading j o l got window =>
    ∃ t ∈ d.tries j.version, ∃ life, t.Leads m j o ∧ l = some life ∧ ReadOk d t o life got window
  | .cursor j n => ∃ t ∈ d.tries j.version, ∃ o, t.Leads m j o ∧ m.deserialize o.start (t.buffer o) = some n

theorem ReadOk.keeps {l : Life} {got : List (Option B)} {window : Bool} (h : ReadOk d t o l got window)
    (hk : d.Keeps d') : ReadOk d' t o l got window where
  count_lt := Nat.lt_of_lt_of_le h.count_lt (hk.count _)
  written := (hk.read_eq (h.written ▸ h.full)).trans h.written
  full := h.full
  length_le := h.length_le
  in_window := h.in_window
  same hw hinfo := h.same hw (hk.life _ _ h.count_lt hinfo)

/-- The steps of the writer do not disturb a lookup. -/
theorem Lookup.Ok.keeps {l : Lookup B Node Key} (hok : d.Ok m) (h : l.Ok m d) (hk : d.Keeps d') : l.Ok m d' := by
  cases l with
  | idle => trivial
  | target j o =>
    obtain ⟨t, ht, hl⟩ := h
    exact ⟨t, hk.tries _ _ ht, hl⟩
  | translated j o l =>
    obtain ⟨t, ht, hl, hsame⟩ := h
    refine ⟨t, hk.tries _ _ ht, hl, fun hvalid => ?_⟩
    have hvalid := hk.ring _ _ ht hvalid
    rw [hsame hvalid, hk.listed _ (hok.stored _ t o hvalid ht hl.2.1).1]
  | reading j o l got window =>
    obtain ⟨t, ht, life, hl, rfl, hread⟩ := h
    exact ⟨t, hk.tries _ _ ht, life, hl, rfl, hread.keeps hk⟩
  | cursor j n =>
    obtain ⟨t, ht, o, hl, hn⟩ := h
    exact ⟨t, hk.tries _ _ ht, o, hl, hn⟩

/-- A version that is valid after the translation: the node was written under it. -/
theorem Disk.Ok.written_of_valid (hok : d.Ok m) (ht : t ∈ d.tries v) (ho : t.reach o) (hvalid : d.ring v ≠ none) :
    ∃ l, d.info o.chunk = some l ∧ read (d.written l) o = t.buffer o := by
  obtain ⟨hlst, hread⟩ := hok.stored v t o hvalid ht ho
  obtain ⟨l, hinfo⟩ := hok.info_some o.chunk (by rw [hlst]; decide)
  refine ⟨l, hinfo, ?_⟩
  rw [← hok.page_eq _ l hinfo (by rw [hlst]; decide)]
  exact hread

variable {s s' : State B Node Key Result ι}

/-- No wrong buffer was taken. -/
structure State.Good (m : Format B Node Key Result) (s : State B Node Key Result ι) : Prop where
  lookups : ∀ i, (s.lookups i).Ok m s.disk
  cache : ∀ l o n, s.cache (l, o) = some n → ∃ life, l = some life ∧ none ∉ read (s.disk.written life) o ∧
    m.deserialize o.start (read (s.disk.written life) o) = some n
  accepted : ∀ a ∈ s.accepted, a.window = false ∧
    ∃ life, a.life = some life ∧ none ∉ read (s.disk.written life) a.offset ∧
      a.buffer = read (s.disk.written life) a.offset
  found : ∀ e ∈ s.found, e.Right m s.disk
  running : s.aborted = false

/-- A wrong buffer was taken. -/
def State.Bad (s : State B Node Key Result ι) : Prop :=
  ∃ a ∈ s.accepted, a.window = true ∧ none ∈ a.buffer ∧
    ∃ life, a.life = some life ∧ none ∉ read (s.disk.written life) a.offset

theorem State.Good.writer (hok : s.disk.Ok m) (h : s.Good m) (hk : s.disk.Keeps d) :
    State.Good m { s with disk := d } where
  lookups i := (h.lookups i).keeps hok hk
  cache l o n hn := by
    obtain ⟨life, hl, hfull, hn⟩ := h.cache l o n hn
    refine ⟨life, hl, ?_⟩
    rw [hk.read_eq hfull]
    exact ⟨hfull, hn⟩
  accepted a ha := by
    obtain ⟨hw, life, hl, hfull, hbuf⟩ := h.accepted a ha
    refine ⟨hw, life, hl, ?_⟩
    rw [hk.read_eq hfull]
    exact ⟨hfull, hbuf⟩
  found e he := by
    obtain ⟨t, ht, hfinds⟩ := h.found e he
    exact ⟨t, hk.tries _ _ ht, hfinds⟩
  running := h.running

theorem State.Bad.writer (h : s.Bad) (hk : s.disk.Keeps d) : State.Bad { s with disk := d } := by
  obtain ⟨a, ha, hw, hnone, life, hl, hfull⟩ := h
  refine ⟨a, ha, hw, hnone, life, hl, ?_⟩
  rw [hk.read_eq hfull]
  exact hfull

theorem initial_ok : (initial : State B Node Key Result ι).disk.Ok m where
  info_some _ h := absurd rfl h
  info_free _ _ := rfl
  page_eq _ _ h := by cases h
  page_gone _ _ := rfl
  count_lt _ _ h := by cases h
  written_lt _ _ h := absurd rfl h
  lives _ _ _ h := by cases h
  tries _ _ h := by cases h
  root _ _ h := by cases h
  stored _ _ _ h := absurd rfl h

theorem initial_good : (initial : State B Node Key Result ι).Good m where
  lookups _ := trivial
  cache _ _ _ h := by cases h
  accepted _ h := by cases h
  found _ h := by cases h
  running := rfl

theorem State.Good.lookup (h : s.Good m) {i : ι} {l : Lookup B Node Key} (hi : s.lookups i = l) : l.Ok m s.disk :=
  hi ▸ h.lookups i

section Readers

variable [DecidableEq ι]

theorem State.Good.setLookup (h : s.Good m) {i : ι} {l : Lookup B Node Key} (hl : l.Ok m s.disk) :
    (s.setLookup i l).Good m := by
  refine { h with lookups := ?_ }
  intro i'
  unfold State.setLookup
  dsimp only
  by_cases hi : i' = i
  · rw [hi, update_self]
    exact hl
  · rw [update_of_ne hi]
    exact h.lookups i'

/-- A page that is read from the right life of the chunk is a page of the node. -/
theorem ReadOk.load {l : Life} {got : List (Option B)} {window : Bool} (hok : d.Ok m)
    (h : ReadOk d t o l got window) (hlen : got.length < o.pages) :
    ReadOk d t o l (got ++ [d.page o.chunk (o.page + got.length)]) (window || d.inWindow o.chunk (some l)) := by
  refine { h with length_le := ?_, in_window := ?_, same := ?_ }
  · rw [length_append, length_singleton]
    exact hlen
  · intro hw
    rcases Bool.or_eq_true_iff.mp hw with hw | hw
    · exact mem_append_left _ (h.in_window hw)
    have hgone := hok.page_gone o.chunk (.inl (of_decide_eq_true (Bool.and_eq_true_iff.mp hw).2))
    rw [hgone]
    exact mem_append_right _ mem_cons_self
  · intro hw hinfo
    obtain ⟨hw, hout⟩ := Bool.or_eq_false_iff.mp hw
    have hphase : d.phase o.chunk ≠ .destroyed := by
      intro hphase
      unfold Disk.inWindow at hout
      rw [decide_eq_true hinfo, decide_eq_true hphase] at hout
      cases hout
    have hbuf : (t.buffer o)[got.length]? = some (d.page o.chunk (o.page + got.length)) := by
      rw [hok.page_eq o.chunk l hinfo hphase, ← h.written]
      unfold read
      rw [List.getElem?_map, List.getElem?_range hlen]
      rfl
    rw [length_append, length_singleton, take_add_one, ← h.same hw hinfo, hbuf]
    rfl

/-- All pages of a node, when none of them came from the window. -/
theorem ReadOk.eq_buffer {l : Life} {got : List (Option B)} {window : Bool} (h : ReadOk d t o l got window)
    (hlen : got.length = o.pages) (hwin : window = false) (hsame : d.info o.chunk = some l) : got = t.buffer o := by
  have hlength : (t.buffer o).length = got.length := by rw [← h.written, read_length, hlen]
  rw [h.same hwin hsame, take_of_length_le (Nat.le_of_eq hlength)]

/-- One step keeps everything right, or takes a buffer with a page from the window. -/
theorem Step.good (hok : s.disk.Ok m) (h : s.Good m) (hstep : Step m s s') : s'.Good m ∨ s'.Bad := by
  cases hstep with
  | writer hw => exact .inl (h.writer hok (hw.keeps hok))
  | evict at_ =>
    refine .inl { h with cache := ?_ }
    intro l o n hn
    dsimp only at hn
    by_cases heq : (l, o) = at_
    · rw [heq, update_self] at hn
      cases hn
    · rw [update_of_ne heq] at hn
      exact h.cache l o n hn
  | start k hi hring =>
    refine .inl (h.setLookup ?_)
    obtain ⟨t, ht, rfl⟩ := hok.root _ _ hring
    exact ⟨t, ht, rfl, (hok.tries _ t ht).1, fun r hr => hr⟩
  | translate hi =>
    refine .inl (h.setLookup ?_)
    obtain ⟨t, ht, hl⟩ := h.lookup hi
    exact ⟨t, ht, hl, fun _ => rfl⟩
  | hit hi hvalid hcache =>
    refine .inl (h.setLookup ?_)
    obtain ⟨t, ht, hl, hsame⟩ := h.lookup hi
    obtain ⟨life, hinfo, hread⟩ := hok.written_of_valid ht hl.2.1 hvalid
    obtain ⟨life', hl', -, hn⟩ := h.cache _ _ _ hcache
    rw [hsame hvalid, hinfo] at hl'
    cases hl'
    exact ⟨t, ht, _, hl, hread ▸ hn⟩
  | miss hi hvalid hcache =>
    rename_i i j o l
    refine .inl (h.setLookup ?_)
    obtain ⟨t, ht, hl, hsame⟩ := h.lookup hi
    obtain ⟨life, hinfo, hread⟩ := hok.written_of_valid ht hl.2.1 hvalid
    refine ⟨t, ht, life, hl, (hsame hvalid).trans hinfo, ?_⟩
    exact {
      count_lt := hok.count_lt _ _ hinfo
      written := hread
      full := (hok.tries _ t ht).2.2 o hl.2.1
      length_le := Nat.zero_le _
      in_window := fun hw => by cases hw
      same := fun _ _ => rfl }
  | load hi hlen =>
    refine .inl (h.setLookup ?_)
    obtain ⟨t, ht, life, hl, rfl, hread⟩ := h.lookup hi
    exact ⟨t, ht, life, hl, rfl, hread.load hok hlen⟩
  | accept hi hlen hsame hn =>
    rename_i i j o l got window n
    obtain ⟨t, ht, life, hl, rfl, hread⟩ := h.lookup hi
    have hfull : none ∉ read (s.disk.written life) o := hread.written ▸ hread.full
    cases hwin : window with
    | true => exact .inr ⟨_, mem_cons_self, rfl, hread.in_window hwin, life, rfl, hfull⟩
    | false =>
      have hgot := hread.eq_buffer hlen hwin hsame
      have hgot' : got = read (s.disk.written life) o := hgot.trans hread.written.symm
      have hcursor : Lookup.Ok m s.disk (.cursor j n) := ⟨t, ht, o, hl, hgot ▸ hn⟩
      refine .inl { h.setLookup (i := i) hcursor with cache := ?_, accepted := ?_ }
      · intro l' o' n' hn'
        dsimp only at hn'
        by_cases heq : (l', o') = (some life, o)
        · rw [heq, update_self] at hn'
          cases heq
          cases hn'
          exact ⟨life, rfl, hfull, hgot' ▸ hn⟩
        · rw [update_of_ne heq] at hn'
          exact h.cache l' o' n' hn'
      · intro a ha
        rcases mem_cons.mp ha with rfl | ha
        · exact ⟨rfl, life, rfl, hfull, hgot'⟩
        · exact h.accepted a ha
  | abort hi hlen hsame hn =>
    rename_i i j o l got window
    obtain ⟨t, ht, life, hl, rfl, hread⟩ := h.lookup hi
    cases hwin : window with
    | true => exact .inr ⟨_, mem_cons_self, rfl, hread.in_window hwin, life, rfl, hread.written ▸ hread.full⟩
    | false =>
      obtain ⟨n, hnode, -⟩ := (hok.tries _ t ht).2.1 o hl.2.1
      rw [hread.eq_buffer hlen hwin hsame, hnode] at hn
      cases hn
  | descend hi hd =>
    refine .inl (h.setLookup ?_)
    obtain ⟨t, ht, o', ⟨hroot, hreach, hl⟩, hn⟩ := h.lookup hi
    obtain ⟨n', hn', hchild⟩ := (hok.tries _ t ht).2.1 o' hreach
    cases Option.some.inj (hn.symm.trans hn')
    exact ⟨t, ht, hroot, hchild _ _ _ hd, fun r hr => hl r (.child hn hd hr)⟩
  | succeed hi hd =>
    rename_i i j n r
    obtain ⟨t, ht, o, ⟨hroot, -, hl⟩, hn⟩ := h.lookup hi
    refine .inl { h.setLookup (i := i) (l := .idle) trivial with found := ?_ }
    intro e he
    rcases mem_cons.mp he with rfl | he
    · exact ⟨t, ht, hroot, hl r (.done hn hd)⟩
    · exact h.found e he
  | giveUp i => exact .inl (h.setLookup trivial)

theorem Step.bad (hok : s.disk.Ok m) (h : s.Bad) (hstep : Step m s s') : s'.Bad := by
  cases hstep with
  | writer hw => exact h.writer (hw.keeps hok)
  | accept | abort =>
    obtain ⟨a, ha, hbad⟩ := h
    exact ⟨a, mem_cons_of_mem _ ha, hbad⟩
  | _ => exact h

theorem Step.ok (hok : s.disk.Ok m) (hstep : Step m s s') : s'.disk.Ok m := by
  cases hstep with
  | writer hw => exact hw.ok hok
  | _ => exact hok

/-- The states of the runs from a fresh pool. -/
def Run (m : Format B Node Key Result) (s : State B Node Key Result ι) : Prop :=
  Relation.ReflTransGen (Step m) initial s

theorem Run.cases (h : Run m s) : s.disk.Ok m ∧ (s.Good m ∨ s.Bad) := by
  induction h with
  | refl => exact ⟨initial_ok, .inl initial_good⟩
  | tail _ hstep ih =>
    obtain ⟨hok, hcase⟩ := ih
    refine ⟨hstep.ok hok, ?_⟩
    rcases hcase with hgood | hbad
    · exact hstep.good hok hgood
    · exact .inr (hstep.bad hok hbad)

/-- Every buffer that was deserialized holds what was written under its virtual offset, every lookup that
succeeded found what the trie of its version holds, and no receiver aborts, exactly when no page of a buffer was
read after the trim of its chunk and before the chunk was appended to the free list. -/
theorem reads_right_iff (h : Run m s) :
    ((∀ a ∈ s.accepted, a.Right s.disk) ∧ (∀ e ∈ s.found, e.Right m s.disk) ∧ s.aborted = false) ↔
      ∀ a ∈ s.accepted, a.window = false := by
  obtain ⟨-, hgood | ⟨a, ha, hw, hnone, life, hl, hfull⟩⟩ := h.cases
  · refine iff_of_true ⟨fun a ha => ?_, hgood.found, hgood.running⟩ fun a ha => (hgood.accepted a ha).1
    obtain ⟨-, life, hl, -, hbuf⟩ := hgood.accepted a ha
    exact ⟨life, hl, hbuf⟩
  refine iff_of_false (fun hright => ?_) fun hwindow => ?_
  · obtain ⟨life', hl', hbuf⟩ := hright.1 a ha
    rw [hl] at hl'
    cases hl'
    rw [hbuf] at hnone
    exact hfull hnone
  · rw [hwindow a ha] at hw
    cases hw

end Readers

/-! ## A run -/

/-- A node is a leaf and its value is its buffer. Its size is on the first page, and an empty page has size zero. -/
def leaves : Format Nat (List (Option Nat)) Unit (List (Option Nat)) where
  deserialize _ buffer :=
    match buffer with
    | some size :: rest => some (some size :: rest)
    | _ => none
  descend n _ := .inl n

/-- A leaf on the first two pages of chunk 0. -/
def leaf : Offset := ⟨0, 0, 2, 0⟩

/-- The trie of one leaf. -/
def single : Trie Nat := ⟨leaf, fun o => o = leaf, fun _ => [some 7, some 8]⟩

/-- Nobody reads the pool yet. -/
def onDisk (d : Disk Nat) : State Nat (List (Option Nat)) Unit (List (Option Nat)) Unit := { initial with disk := d }

/-- The pool with that trie as version 0, and a chunk behind it. -/
def published : Disk Nat where
  info := update (update (fun _ => none) 0 (some ⟨.fast, 0⟩)) 1 (some ⟨.fast, 1⟩)
  phase := update (update (fun _ => .free) 0 .listed) 1 .listed
  page := update (update (fun _ _ => none) 0 (update (fun _ => none) 0 (some 7))) 0
    (update (update (fun _ => none) 0 (some 7)) 1 (some 8))
  nextCount := update (update (fun _ => 0) .fast 1) .fast 2
  ring := update (fun _ => none) 0 (some leaf)
  written := update (update (fun _ _ => none) ⟨.fast, 0⟩ (update (fun _ => none) 0 (some 7))) ⟨.fast, 0⟩
    (update (update (fun _ => none) 0 (some 7)) 1 (some 8))
  tries := update (fun _ => []) 0 [single]

theorem run_published : Run leaves (onDisk published) := by
  have hclosed : single.Closed leaves := fun o ho => ⟨_, rfl, fun k o' k' h => by cases h⟩
  have happend : Run leaves (onDisk _) := Relation.ReflTransGen.refl.tail (.writer (.append (c := 0) .fast rfl))
  have hbehind : Run leaves (onDisk _) := happend.tail (.writer (.append (c := 1) .fast rfl))
  have hwrite : Run leaves (onDisk _) := hbehind.tail (.writer (.write (c := 0) (p := 0) 7 rfl rfl rfl))
  have hwrite' : Run leaves (onDisk _) := hwrite.tail (.writer (.write (c := 0) (p := 1) 8 rfl rfl rfl))
  refine hwrite'.tail (.writer (.publish (v := 0) (t := single) (.inl rfl) rfl hclosed fun o ho => ?_))
  cases ho
  exact ⟨rfl, rfl, by decide⟩

/-- A lookup of version 0 that has read the first page of the leaf. -/
theorem run_firstPage : ∃ s : State Nat (List (Option Nat)) Unit (List (Option Nat)) Unit, Run leaves s ∧
    s = (onDisk published).setLookup () (.reading ⟨0, leaf, (), ()⟩ leaf (some ⟨.fast, 0⟩) [some 7] false) := by
  have hbeg : Run leaves _ := run_published.tail (.start (i := ()) (v := 0) () rfl rfl)
  have htranslate : Run leaves _ := hbeg.tail (.translate (i := ()) rfl)
  have hmiss : Run leaves _ := htranslate.tail (.miss (i := ()) rfl (some_ne_none _) rfl)
  have hload : Run leaves _ := hmiss.tail (.load (i := ()) rfl (by decide))
  refine ⟨_, hload, ?_⟩
  unfold State.setLookup
  simp only [update_idem]
  rfl

/-- The leaf is read before its version expires. -/
theorem reads_right_iff_published : ∃ s : State Nat (List (Option Nat)) Unit (List (Option Nat)) Unit, Run leaves s ∧
    s.found = [⟨0, leaf, (), [some 7, some 8]⟩] ∧
    (((∀ a ∈ s.accepted, a.Right s.disk) ∧ (∀ e ∈ s.found, e.Right leaves s.disk) ∧ s.aborted = false) ↔
      ∀ a ∈ s.accepted, a.window = false) := by
  obtain ⟨_, hfirst, rfl⟩ := run_firstPage
  have hload : Run leaves _ := hfirst.tail (.load (i := ()) rfl (by decide))
  have haccept : Run leaves _ := hload.tail (.accept (i := ()) rfl rfl rfl rfl)
  have hsucceed : Run leaves _ := haccept.tail (.succeed (i := ()) rfl rfl)
  exact ⟨_, hsucceed, rfl, reads_right_iff hsucceed⟩

/-- The version expires and the chunk is trimmed while the leaf is read. The info word of the chunk is still the
old one, so the buffer is taken, with an empty page in place of the second one. -/
theorem reads_wrong : ∃ s : State Nat (List (Option Nat)) Unit (List (Option Nat)) Unit, Run leaves s ∧
    (∃ a ∈ s.accepted, ¬ a.Right s.disk) ∧ ∃ e ∈ s.found, ¬ e.Right leaves s.disk := by
  obtain ⟨_, hfirst, rfl⟩ := run_firstPage
  have hexpire : Run leaves _ := hfirst.tail (.writer (.expire 0))
  have hnone : ∀ v, update published.ring 0 none v = none := by
    intro v
    unfold published
    rw [update_idem, update_apply]
    split
    · rfl
    · rfl
  have htail : ∀ l : Life, published.info 0 = some l → l.insertionCount + 1 < published.nextCount l.list := by
    intro l hl
    cases hl
    decide
  have hrem : Run leaves _ :=
    hexpire.tail (.writer (.remove (c := 0) rfl htail fun v t hvalid => absurd (hnone v) hvalid))
  have hdestroy : Run leaves _ := hrem.tail (.writer (.destroyContents (c := 0) rfl))
  have hload : Run leaves _ := hdestroy.tail (.load (i := ()) rfl (by decide))
  have haccept : Run leaves _ := hload.tail (.accept (i := ()) rfl rfl rfl rfl)
  have hsucceed : Run leaves _ := haccept.tail (.succeed (i := ()) rfl rfl)
  refine ⟨_, hsucceed, ⟨_, mem_cons_self, ?_⟩, ⟨_, mem_cons_self, ?_⟩⟩
  · rintro ⟨l, hl, hbuf⟩
    cases hl
    cases hbuf
  · rintro ⟨t, ht, -, hfinds⟩
    cases mem_singleton.mp ht
    cases hfinds with
    | done hn h =>
      cases hn
      cases h
    | child hn h _ =>
      cases hn
      cases h

end MonadExecution.Recycling
