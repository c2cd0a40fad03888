import Patricia.Proofs.Format.Decoded
import Patricia.Proofs.Loader.Traffic
import Patricia.Proofs.Node.Form

/-!
# One flight for each hash

Whatever the order in which the steps of the loads, of the store and of the cache come, the slots
for flights are those of the flights under way (`Traffic.Slotted`), and whatever a flight, the cache
or a load has for a hash is vouched for by an answer of the store (`Traffic.Truthful`). Each step
keeps both. So there is at most one flight and one outstanding read for a hash, loads that wait for
one flight are handed one outcome, and a flight gives up its own slot only
(`Traffic.run_singleFlight`).
-/

namespace Patricia

namespace Loader

variable {loader : Loader} {hash : Hash}

/-- A flight that is found has a slot. -/
theorem mem_of_flight? {flight : Flight} (h : loader.flight? hash = some flight) :
    (hash, flight) ∈ loader.flights := by
  obtain ⟨before, after, heq, -⟩ := List.lookup_eq_some_iff.mp h
  rw [heq]
  exact List.mem_append_right _ List.mem_cons_self

/-- Issuing the read for a hash marks its slot. -/
theorem mem_launch {key : Hash} {flight : Flight} :
    (key, flight) ∈ (loader.launch hash).flights ↔ ∃ slot, (key, slot) ∈ loader.flights ∧
      (if key = hash then { slot with issued := true } else slot) = flight := by
  simp [launch]

/-- A node that comes from an answer has the hash that was asked for, and its form is what was
answered. -/
theorem receive_ok {answer : Answer} {node : Resolved}
    (h : (loader.receive hash answer).1 = .ok node) :
    node.val.hash = hash ∧ ∃ bytes, node.val.rlp = .ok bytes ∧ answer = .ok (some bytes) := by
  rw [receive] at h
  cases hjudge : judge hash answer with
  | error error =>
      rw [hjudge] at h
      cases h
  | ok read =>
      rw [hjudge] at h
      cases h
      obtain ⟨bytes, rfl, hhash, hdecode⟩ := judge_eq_ok hjudge
      obtain ⟨⟨literal, hstored⟩, rfl, -, hnull⟩ := Node.decode_literal hdecode
      rw [← hhash]
      cases literal with
      | null => cases hnull
      | leaf | extension => exact ⟨rfl, bytes, rfl, rfl⟩
      | branch =>
          simp only [Resolved.issue, Resolved.readFrom, Node.readFrom, Node.issue,
            Node.restamp_branch]
          exact ⟨rfl, bytes, rfl, rfl⟩
      | stored => cases hstored

end Loader

namespace Traffic

variable {traffic : Traffic} {event : Event} {hash : Hash}

/-! ## Slots and flights -/

/-- The slots are those of the flights under way, one for each hash at most. -/
structure Slotted (traffic : Traffic) : Prop where
  installed : traffic.loader.installed = traffic.fetches.length
  single : (traffic.loader.flights.map Prod.fst).Nodup
  mem_iff : ∀ hash number issued, (hash, Flight.mk number issued) ∈ traffic.loader.flights ↔
    ∃ stage, traffic.fetches[number]? = some ⟨hash, stage⟩ ∧ stage.issued? = some issued

namespace Slotted

/-- Before the first load there are neither slots nor flights. -/
theorem start (owner : Nat) (settings : Settings) : (Traffic.start owner settings).Slotted where
  installed := rfl
  single := List.nodup_nil
  mem_iff _ _ _ := ⟨nofun, nofun⟩

/-- Two slots for a hash are one. -/
theorem eq_of_hash (h : traffic.Slotted) {flight other : Flight}
    (hmem : (hash, flight) ∈ traffic.loader.flights)
    (hother : (hash, other) ∈ traffic.loader.flights) : flight = other :=
  congrArg Prod.snd (List.inj_on_of_nodup_map h.single hmem hother rfl)

/-- Two flights under way for a hash are one. -/
theorem eq_of_issued (h : traffic.Slotted) {number other : Nat} {stage otherStage : Stage}
    (hstage : traffic.fetches[number]? = some ⟨hash, stage⟩) (hissued : stage.issued?.isSome)
    (hother : traffic.fetches[other]? = some ⟨hash, otherStage⟩)
    (hotherIssued : otherStage.issued?.isSome) : number = other := by
  obtain ⟨issued, hissued⟩ := Option.isSome_iff_exists.mp hissued
  obtain ⟨otherIssued, hotherIssued⟩ := Option.isSome_iff_exists.mp hotherIssued
  have hmem := (h.mem_iff hash number issued).mpr ⟨stage, hstage, hissued⟩
  have hmem' := (h.mem_iff hash other otherIssued).mpr ⟨otherStage, hother, hotherIssued⟩
  exact congrArg Flight.number (h.eq_of_hash hmem hmem')

/-- A slot is under the hash of its flight. -/
theorem hash_eq (h : traffic.Slotted) {key : Hash} {flight : Flight} {stage : Stage}
    (hmem : (key, flight) ∈ traffic.loader.flights)
    (hstage : traffic.fetches[flight.number]? = some ⟨hash, stage⟩) : key = hash := by
  obtain ⟨found, hfound, -⟩ := (h.mem_iff key flight.number flight.issued).mp hmem
  exact congrArg Fetch.hash (Option.some.inj (hfound.symm.trans hstage))

/-- Only slots and flights matter. -/
theorem congr (h : traffic.Slotted) {later : Traffic}
    (hflights : later.loader.flights = traffic.loader.flights)
    (hinstalled : later.loader.installed = traffic.loader.installed)
    (hfetches : later.fetches = traffic.fetches) : later.Slotted := by
  refine ⟨?_, ?_, ?_⟩
  · rw [hinstalled, hfetches]
    exact h.installed
  · rw [hflights]
    exact h.single
  · rw [hflights, hfetches]
    exact h.mem_iff

/-- A flight can get further as long as it stays under way and its read was issued before. -/
theorem progress (h : traffic.Slotted) {flight : Nat} {stage : Stage} (next : Stage)
    (hstage : traffic.fetches[flight]? = some ⟨hash, stage⟩)
    (hnext : next.issued? = stage.issued?) :
    (traffic.progress flight hash next).Slotted := by
  refine ⟨h.installed.trans List.length_set.symm, h.single, fun other number issued ↦ ?_⟩
  show _ ↔ ∃ stage, (traffic.fetches.set flight ⟨hash, next⟩)[number]? = some ⟨other, stage⟩ ∧ _
  rw [show (traffic.progress flight hash next).loader = traffic.loader from rfl, h.mem_iff]
  by_cases heq : flight = number
  · subst heq
    rw [List.getElem?_set_self (List.getElem?_eq_some_iff.mp hstage).1, hstage]
    constructor
    · rintro ⟨found, hfound, hissued⟩
      cases hfound
      exact ⟨next, rfl, hnext.trans hissued⟩
    · rintro ⟨found, hfound, hissued⟩
      cases hfound
      exact ⟨stage, rfl, hnext.symm.trans hissued⟩
  · rw [List.getElem?_set_ne heq]

/-- A slot is installed for a hash without one, with the next number. -/
theorem install (h : traffic.Slotted) (hnone : traffic.loader.flight? hash = none)
    {callers : List Caller} :
    Slotted { traffic with
      loader := { traffic.loader with
        flights := (hash, ⟨traffic.loader.installed, false⟩) :: traffic.loader.flights
        installed := traffic.loader.installed + 1 }
      callers
      fetches := traffic.fetches ++ [⟨hash, .planned⟩] } := by
  refine ⟨?_, ?_, fun other number issued ↦ ?_⟩
  · simp [h.installed]
  · refine List.nodup_cons.mpr ⟨fun hmem ↦ ?_, h.single⟩
    obtain ⟨⟨key, flight⟩, hslot, rfl⟩ := List.mem_map.mp hmem
    exact bne_iff_ne.mp (List.lookup_eq_none_iff.mp hnone _ hslot) rfl
  · rw [List.mem_cons, h.mem_iff, h.installed, List.getElem?_append]
    by_cases hlt : number < traffic.fetches.length
    · rw [if_pos hlt]
      constructor
      · rintro (heq | hold)
        · cases heq
          exact absurd hlt (Nat.lt_irrefl _)
        · exact hold
      · exact Or.inr
    · rw [if_neg hlt]
      constructor
      · rintro (heq | ⟨stage, hstage, -⟩)
        · cases heq
          exact ⟨.planned, by simp, rfl⟩
        · exact absurd (List.getElem?_eq_some_iff.mp hstage).1 hlt
      · rintro ⟨stage, hstage, hissued⟩
        obtain ⟨hzero, hfetch⟩ := List.getElem?_eq_some_iff.mp hstage
        have hnumber : number = traffic.fetches.length := by
          have hzero : number - traffic.fetches.length < 1 := hzero
          omega
        subst hnumber
        simp only [Nat.sub_self, List.getElem_cons_zero, Fetch.mk.injEq] at hfetch
        obtain ⟨rfl, rfl⟩ := hfetch
        cases hissued
        exact Or.inl rfl

/-- The read of a planned flight is issued. -/
theorem launch (h : traffic.Slotted) {flight : Nat}
    (hstage : traffic.fetches[flight]? = some ⟨hash, .planned⟩) :
    Slotted { traffic.progress flight hash .reading with
      loader := traffic.loader.launch hash } := by
  have hslot : (hash, Flight.mk flight false) ∈ traffic.loader.flights :=
    (h.mem_iff hash flight false).mpr ⟨.planned, hstage, rfl⟩
  refine ⟨h.installed.trans List.length_set.symm, ?_, fun other number issued ↦ ?_⟩
  · simpa [Loader.launch, Function.comp_def] using h.single
  · show _ ↔
      ∃ stage, (traffic.fetches.set flight ⟨hash, .reading⟩)[number]? = some ⟨other, stage⟩ ∧ _
    rw [Loader.mem_launch]
    by_cases heq : flight = number
    · subst heq
      rw [List.getElem?_set_self (List.getElem?_eq_some_iff.mp hstage).1]
      constructor
      · rintro ⟨slot, hmem, hnew⟩
        by_cases hkey : other = hash
        · subst hkey
          obtain rfl := h.eq_of_hash hmem hslot
          rw [if_pos rfl] at hnew
          cases hnew
          exact ⟨.reading, rfl, rfl⟩
        · rw [if_neg hkey] at hnew
          subst hnew
          exact absurd (h.hash_eq hmem hstage) hkey
      · rintro ⟨found, hfound, hissued⟩
        cases hfound
        cases hissued
        exact ⟨_, hslot, if_pos rfl⟩
    · rw [List.getElem?_set_ne heq, ← h.mem_iff]
      have hother : ∀ {slot : Flight}, (other, slot) ∈ traffic.loader.flights →
          slot.number = number → other ≠ hash := by
        rintro slot hmem hnumber rfl
        exact heq ((congrArg Flight.number (h.eq_of_hash hslot hmem)).trans hnumber)
      constructor
      · rintro ⟨slot, hmem, hnew⟩
        have hnumber : slot.number = number := by
          split at hnew <;> exact congrArg Flight.number hnew
        rw [if_neg (hother hmem hnumber)] at hnew
        subst hnew
        exact hmem
      · exact fun hmem ↦ ⟨_, hmem, if_neg (hother hmem rfl)⟩

/-- The slot of a flight is given up when its node is in the cache. -/
theorem release (h : traffic.Slotted) {flight : Nat} {outcome : Except TrieError Resolved}
    (hstage : traffic.fetches[flight]? = some ⟨hash, .cached outcome⟩) :
    Slotted { traffic.progress flight hash (.ended outcome) with
      loader := traffic.loader.release hash } := by
  have hslot : (hash, Flight.mk flight true) ∈ traffic.loader.flights :=
    (h.mem_iff hash flight true).mpr ⟨.cached outcome, hstage, rfl⟩
  refine ⟨h.installed.trans List.length_set.symm,
    h.single.sublist (List.filter_sublist.map Prod.fst), fun other number issued ↦ ?_⟩
  show (other, Flight.mk number issued) ∈ traffic.loader.flights.filter _ ↔
    ∃ stage, (traffic.fetches.set flight ⟨hash, .ended outcome⟩)[number]? = some ⟨other, stage⟩ ∧ _
  rw [List.mem_filter, decide_eq_true_iff]
  by_cases heq : flight = number
  · subst heq
    rw [List.getElem?_set_self (List.getElem?_eq_some_iff.mp hstage).1]
    constructor
    · rintro ⟨hmem, hne⟩
      exact absurd (h.hash_eq hmem hstage) hne
    · rintro ⟨found, hfound, hissued⟩
      cases hfound
      cases hissued
  · rw [List.getElem?_set_ne heq, ← h.mem_iff, and_iff_left_iff_imp]
    rintro hmem rfl
    exact heq (congrArg Flight.number (h.eq_of_hash hslot hmem))

/-- Every step keeps the slots right. -/
theorem step (h : traffic.Slotted) : (traffic.step event).Slotted := by
  generalize hlater : traffic.step event = later
  rcases step_cases hlater with rfl | hmove
  · exact h
  · cases hmove with
    | hit hfound | find hcaller hflight hfound =>
        obtain ⟨-, -, hflights, hinstalled⟩ := Loader.lookUp_entries hfound
        exact h.congr hflights hinstalled rfl
    | miss | join | deliver | evict => exact h.congr rfl rfl rfl
    | install hcaller hflight => exact h.install hflight
    | depart hcaller hstage => exact h.launch hstage
    | answer answer hstage =>
        obtain ⟨hflights, hinstalled, -⟩ := traffic.loader.receive_frame _ answer
        exact (h.progress (.answered _) hstage rfl).congr hflights hinstalled rfl
    | keep hstage =>
        obtain ⟨hflights, hinstalled⟩ := traffic.loader.keep_frame _ _
        exact (h.progress (.cached _) hstage rfl).congr hflights hinstalled rfl
    | release hstage => exact h.release hstage

/-- Every run keeps the slots right. -/
theorem run (h : traffic.Slotted) (events : List Event) : (traffic.run events).Slotted :=
  run_induction (p := Slotted) h step events

/-- A slot is lost only when its own flight gives it up, after the node went into the cache. -/
theorem release_of_lost (h : traffic.Slotted) {flight : Flight}
    (hmem : (hash, flight) ∈ traffic.loader.flights)
    (hlost : ∀ other, (hash, other) ∈ (traffic.step event).loader.flights →
      other.number ≠ flight.number) :
    ∃ outcome, event = .release flight.number ∧
      traffic.fetches[flight.number]? = some ⟨hash, .cached outcome⟩ := by
  generalize hlater : traffic.step event = later at hlost
  have hkeep : later.loader.flights ≠ traffic.loader.flights :=
    fun heq ↦ hlost flight (heq ▸ hmem) rfl
  rcases step_cases hlater with rfl | hmove
  · exact absurd rfl hkeep
  · cases hmove with
    | hit hfound | find hcaller hflight hfound =>
        exact absurd (Loader.lookUp_entries hfound).2.2.1 hkeep
    | miss | join | deliver | evict => exact absurd rfl hkeep
    | install => exact absurd rfl (hlost flight (List.mem_cons_of_mem _ hmem))
    | depart =>
        exact absurd (by split <;> rfl) (hlost _ (Loader.mem_launch.mpr ⟨flight, hmem, rfl⟩))
    | answer answer => exact absurd (traffic.loader.receive_frame _ answer).1 hkeep
    | keep => exact absurd (traffic.loader.keep_frame _ _).1 hkeep
    | release hstage =>
        rename_i number key outcome
        have hkey : hash = key := by
          by_contra hne
          exact hlost flight (List.mem_filter.mpr ⟨hmem, decide_eq_true hne⟩) rfl
        subst hkey
        have hslot := (h.mem_iff hash number true).mpr ⟨.cached outcome, hstage, rfl⟩
        obtain rfl := h.eq_of_hash hmem hslot
        exact ⟨outcome, rfl, hstage⟩

end Slotted

/-! ## Answers and outcomes -/

/-- Some answer vouches for a node under a hash: the node has the hash, and its form is what the
store answered a read of the hash with. -/
def Answered (answers : List (Hash × Answer)) (hash : Hash) (node : Resolved) : Prop :=
  node.val.hash = hash ∧ ∃ bytes, node.val.rlp = .ok bytes ∧ (hash, .ok (some bytes)) ∈ answers

/-- What has become of a load has its ground: a load waits for a flight for its own hash, was handed
the outcome of one that is over, and was served a node that an answer vouches for. -/
def Founded (fetches : List Fetch) (answers : List (Hash × Answer)) : Caller → Prop
  | .missed _ => True
  | .waiting hash flight => ∃ stage, fetches[flight]? = some ⟨hash, stage⟩
  | .served hash node => Answered answers hash node
  | .handed hash flight outcome => fetches[flight]? = some ⟨hash, .ended outcome⟩

/-- Answers vouch for all nodes in the cache and from flights, and all that has become of loads has
its ground. -/
structure Truthful (traffic : Traffic) : Prop where
  cached : ∀ entry ∈ traffic.loader.cache.entries, Answered traffic.answers entry.1 entry.2
  fetched : ∀ (flight : Nat) (hash : Hash) (stage : Stage) (node : Resolved),
    traffic.fetches[flight]? = some ⟨hash, stage⟩ → stage.outcome? = some (.ok node) →
      Answered traffic.answers hash node
  founded : ∀ caller ∈ traffic.callers, Founded traffic.fetches traffic.answers caller

/-- What an answer vouches for it still does after more answers. -/
theorem Answered.mono {answers more : List (Hash × Answer)} {node : Resolved}
    (h : Answered answers hash node) (hmore : answers ⊆ more) : Answered more hash node := by
  obtain ⟨hhash, bytes, hbytes, hmem⟩ := h
  exact ⟨hhash, bytes, hbytes, hmore hmem⟩

/-- A ground remains after more answers. -/
theorem Founded.mono {fetches : List Fetch} {answers more : List (Hash × Answer)} {caller : Caller}
    (h : Founded fetches answers caller) (hmore : answers ⊆ more) :
    Founded fetches more caller := by
  cases caller with
  | missed | waiting | handed => exact h
  | served hash node => exact Answered.mono h hmore

namespace Truthful

/-- Before the first load there is nothing to vouch for. -/
theorem start (owner : Nat) (settings : Settings) : (Traffic.start owner settings).Truthful where
  cached := nofun
  fetched := nofun
  founded := nofun

/-- More answers, loads that have their ground and cached nodes that answers vouch for do no harm.
-/
theorem extend (h : traffic.Truthful) {later : Traffic} (hfetches : later.fetches = traffic.fetches)
    (hanswers : traffic.answers ⊆ later.answers)
    (hcached : ∀ entry ∈ later.loader.cache.entries, entry ∈ traffic.loader.cache.entries ∨
      Answered later.answers entry.1 entry.2)
    (hfounded : ∀ caller ∈ later.callers, caller ∈ traffic.callers ∨
      Founded later.fetches later.answers caller) : later.Truthful where
  cached entry hentry := by
    rcases hcached entry hentry with hold | hnew
    · exact (h.cached entry hold).mono hanswers
    · exact hnew
  fetched flight hash stage node hstage houtcome :=
    (h.fetched flight hash stage node (hfetches ▸ hstage) houtcome).mono hanswers
  founded caller hcaller := by
    rcases hfounded caller hcaller with hold | hnew
    · rw [hfetches]
      exact (h.founded caller hold).mono hanswers
    · exact hnew

/-- A load may have come to something new if that has its ground. -/
theorem serve (h : traffic.Truthful) {number : Nat} (caller : Caller)
    (hcaller : Founded traffic.fetches traffic.answers caller) {loader : Loader}
    (hcached : ∀ entry ∈ loader.cache.entries, entry ∈ traffic.loader.cache.entries) :
    Truthful { traffic with loader, callers := traffic.callers.set number caller } := by
  refine h.extend rfl (List.Subset.refl _) (fun entry hentry ↦ Or.inl (hcached entry hentry)) ?_
  intro other hother
  rcases List.mem_or_eq_of_mem_set hother with hold | rfl
  · exact Or.inl hold
  · exact Or.inr hcaller

/-- A load may begin with something that has its ground. -/
theorem enter (h : traffic.Truthful) (caller : Caller)
    (hcaller : Founded traffic.fetches traffic.answers caller) {loader : Loader}
    (hcached : ∀ entry ∈ loader.cache.entries, entry ∈ traffic.loader.cache.entries) :
    Truthful { traffic with loader, callers := traffic.callers ++ [caller] } := by
  refine h.extend rfl (List.Subset.refl _) (fun entry hentry ↦ Or.inl (hcached entry hentry)) ?_
  intro other hother
  rcases List.mem_append.mp hother with hold | hnew
  · exact Or.inl hold
  · rw [List.mem_singleton.mp hnew]
    exact Or.inr hcaller

/-- A new flight does no harm. -/
theorem install (h : traffic.Truthful) :
    Truthful { traffic with fetches := traffic.fetches ++ [⟨hash, .planned⟩] } := by
  have hold : ∀ {flight : Nat} {fetch : Fetch}, traffic.fetches[flight]? = some fetch →
      (traffic.fetches ++ [⟨hash, .planned⟩])[flight]? = some fetch := by
    intro flight fetch hfetch
    rw [List.getElem?_append_left (List.getElem?_eq_some_iff.mp hfetch).1, hfetch]
  refine ⟨h.cached, fun flight key stage node hstage houtcome ↦ ?_, fun caller hcaller ↦ ?_⟩
  · rcases List.mem_append.mp (List.mem_of_getElem? hstage) with hmem | hnew
    · obtain ⟨number, hnumber⟩ := List.mem_iff_getElem?.mp hmem
      exact h.fetched number key stage node hnumber houtcome
    · cases List.mem_singleton.mp hnew
      cases houtcome
  · have hfounded := h.founded caller hcaller
    cases caller with
    | missed | served => exact hfounded
    | waiting key flight => exact hfounded.imp fun stage hstage ↦ hold hstage
    | handed key flight outcome => exact hold hfounded

/-- A flight under way can get further if an answer vouches for what it has then. -/
theorem progress (h : traffic.Truthful) {flight : Nat} {stage : Stage} (next : Stage)
    (hstage : traffic.fetches[flight]? = some ⟨hash, stage⟩) (hunder : stage.issued?.isSome)
    (hnext : ∀ node, next.outcome? = some (.ok node) → Answered traffic.answers hash node) :
    (traffic.progress flight hash next).Truthful := by
  have hself : (traffic.fetches.set flight ⟨hash, next⟩)[flight]? = some ⟨hash, next⟩ :=
    List.getElem?_set_self (List.getElem?_eq_some_iff.mp hstage).1
  refine ⟨h.cached, fun number key found node hfound houtcome ↦ ?_, fun caller hcaller ↦ ?_⟩
  · by_cases heq : flight = number
    · subst heq
      cases hself.symm.trans hfound
      exact hnext node houtcome
    · exact h.fetched number key found node ((List.getElem?_set_ne heq).symm.trans hfound) houtcome
  · have hfounded := h.founded caller hcaller
    cases caller with
    | missed | served => exact hfounded
    | waiting key number =>
        obtain ⟨found, hfound⟩ := hfounded
        by_cases heq : flight = number
        · subst heq
          cases hstage.symm.trans hfound
          exact ⟨next, hself⟩
        · exact ⟨found, (List.getElem?_set_ne heq).trans hfound⟩
    | handed key number outcome =>
        -- A flight that is over gets no further.
        have hne : flight ≠ number := by
          rintro rfl
          cases hstage.symm.trans hfounded
          cases hunder
        exact (List.getElem?_set_ne hne).trans hfounded

/-- Every step keeps the truth. -/
theorem step (h : traffic.Truthful) (hslotted : traffic.Slotted) :
    (traffic.step event).Truthful := by
  generalize hlater : traffic.step event = later
  rcases step_cases hlater with rfl | hmove
  · exact h
  · cases hmove with
    | hit hfound =>
        obtain ⟨hmem, hentries, -, -⟩ := Loader.lookUp_entries hfound
        exact h.enter (.served _ _) (h.cached _ hmem) hentries
    | miss => exact h.enter (.missed _) trivial fun _ ↦ id
    | join hcaller hflight =>
        have hmem := Loader.mem_of_flight? hflight
        obtain ⟨stage, hstage, -⟩ := (hslotted.mem_iff _ _ _).mp hmem
        exact h.serve (.waiting _ _) ⟨stage, hstage⟩ fun _ ↦ id
    | find hcaller hflight hfound =>
        obtain ⟨hmem, hentries, -, -⟩ := Loader.lookUp_entries hfound
        exact h.serve (.served _ _) (h.cached _ hmem) hentries
    | install =>
        rename_i hash hcaller hflight hmiss
        have hnew : (traffic.fetches ++ [⟨hash, .planned⟩])[traffic.loader.installed]? =
            some ⟨hash, .planned⟩ := by
          rw [hslotted.installed, List.getElem?_concat_length]
        exact h.install.serve (.waiting _ _) ⟨.planned, hnew⟩ fun _ ↦ id
    | depart hcaller hstage =>
        exact (h.progress .reading hstage rfl nofun).extend rfl (List.Subset.refl _)
          (fun _ ↦ Or.inl) fun _ ↦ Or.inl
    | answer answer hstage =>
        rename_i hash
        obtain ⟨-, -, hcache⟩ := traffic.loader.receive_frame hash answer
        have hmore : Truthful { traffic with answers := (hash, answer) :: traffic.answers } :=
          h.extend rfl (List.subset_cons_self _ _) (fun _ ↦ Or.inl) fun _ ↦ Or.inl
        have hnext : ∀ node,
            (Stage.answered (traffic.loader.receive hash answer).1).outcome? = some (.ok node) →
              Answered ((hash, answer) :: traffic.answers) hash node := by
          intro node hnode
          obtain ⟨hhash, bytes, hbytes, rfl⟩ := Loader.receive_ok (Option.some.inj hnode)
          exact ⟨hhash, bytes, hbytes, List.mem_cons_self⟩
        exact (hmore.progress _ hstage rfl hnext).extend rfl (List.Subset.refl _)
          (fun entry hentry ↦ Or.inl (hcache ▸ hentry)) fun _ ↦ Or.inl
    | keep hstage =>
        rename_i hash outcome
        refine (h.progress (.cached outcome) hstage rfl
          (h.fetched _ _ _ · hstage ·)).extend rfl (List.Subset.refl _)
          (fun entry hentry ↦ ?_) fun _ ↦ Or.inl
        cases outcome with
        | error error => exact Or.inl hentry
        | ok node =>
            rcases Recency.mem_put hentry with rfl | hold
            · exact Or.inr (h.fetched _ _ _ node hstage rfl)
            · exact Or.inl hold
    | release hstage =>
        exact (h.progress (.ended _) hstage rfl (h.fetched _ _ _ · hstage ·)).extend rfl
          (List.Subset.refl _) (fun _ ↦ Or.inl) fun _ ↦ Or.inl
    | deliver hcaller hstage =>
        obtain ⟨stage, hwaiting⟩ := h.founded _ (List.mem_of_getElem? hcaller)
        cases hstage.symm.trans hwaiting
        exact h.serve (.handed _ _ _) hstage fun _ ↦ id
    | evict =>
        exact h.extend rfl (List.Subset.refl _)
          (fun entry hentry ↦ Or.inl (Recency.mem_evict hentry)) fun _ ↦ Or.inl

/-- Every run keeps the truth. -/
theorem run (h : traffic.Truthful) (hslotted : traffic.Slotted) (events : List Event) :
    (traffic.run events).Truthful :=
  (run_induction (p := fun traffic ↦ traffic.Slotted ∧ traffic.Truthful) ⟨hslotted, h⟩
    (fun ⟨hslotted, htruthful⟩ ↦ ⟨hslotted.step, htruthful.step hslotted⟩) events).2

end Truthful

/-! ## The guarantee -/

/-- Loads of one hash share one flight. -/
structure SingleFlight (traffic : Traffic) : Prop where
  /-- For a hash at most one flight is installed. -/
  installed : (traffic.loader.flights.map Prod.fst).Nodup
  /-- For a hash at most one read is outstanding. -/
  reading : ∀ (hash : Hash) (flight other : Nat),
    traffic.fetches[flight]? = some ⟨hash, .reading⟩ →
      traffic.fetches[other]? = some ⟨hash, .reading⟩ → flight = other
  /-- Loads that waited for the same flight asked for the same hash and have the same outcome. -/
  shared : ∀ (flight : Nat) (hash otherHash : Hash) (outcome other : Except TrieError Resolved),
    .handed hash flight outcome ∈ traffic.callers →
      .handed otherHash flight other ∈ traffic.callers → hash = otherHash ∧ outcome = other
  /-- The node that a load ended with has the hash that was asked for, and the store answered a read
  of that hash with its form. -/
  answered : ∀ caller ∈ traffic.callers, ∀ (hash : Hash) (node : Resolved),
    caller.outcome? = some (hash, .ok node) → node.val.hash = hash ∧
      ∃ bytes, node.val.rlp = .ok bytes ∧ (hash, .ok (some bytes)) ∈ traffic.answers
  /-- A flight that is over has no slot. -/
  ended : ∀ (flight : Nat) (hash : Hash) (outcome : Except TrieError Resolved),
    traffic.fetches[flight]? = some ⟨hash, .ended outcome⟩ →
      ∀ slot ∈ traffic.loader.flights, slot.2.number ≠ flight
  /-- A slot is lost in a step only when its own flight gives it up, which has an outcome. -/
  own : ∀ (event : Event) (hash : Hash) (slot : Flight), (hash, slot) ∈ traffic.loader.flights →
    (∀ other, (hash, other) ∈ (traffic.step event).loader.flights → other.number ≠ slot.number) →
      ∃ outcome, event = .release slot.number ∧
        traffic.fetches[slot.number]? = some ⟨hash, .cached outcome⟩

/-- Loads share one flight if the slots are right and all that became of loads has its ground. -/
theorem SingleFlight.of_slotted (hslotted : traffic.Slotted) (htruthful : traffic.Truthful) :
    traffic.SingleFlight where
  installed := hslotted.single
  reading hash flight other hflight hother := hslotted.eq_of_issued hflight rfl hother rfl
  shared flight hash otherHash outcome other hcaller hother := by
    have hfetch := htruthful.founded _ hcaller
    cases hfetch.symm.trans (htruthful.founded _ hother)
    exact ⟨rfl, rfl⟩
  answered caller hcaller hash node houtcome := by
    have hfounded := htruthful.founded caller hcaller
    cases caller with
    | missed | waiting => cases houtcome
    | served key served =>
        cases houtcome
        exact hfounded
    | handed key flight outcome =>
        cases houtcome
        exact htruthful.fetched flight hash _ node hfounded rfl
  ended flight hash outcome hover slot hslot hnumber := by
    obtain ⟨stage, hstage, hissued⟩ :=
      (hslotted.mem_iff slot.1 slot.2.number slot.2.issued).mp hslot
    rw [hnumber] at hstage
    cases hover.symm.trans hstage
    cases hissued
  own event hash slot hslot hlost := hslotted.release_of_lost hslot hlost

/-- At every point of every run of loads over a new loader, loads of one hash share one flight. -/
theorem run_singleFlight (owner : Nat) (settings : Settings) (events : List Event) :
    ((start owner settings).run events).SingleFlight := by
  have hslotted : (start owner settings).Slotted := .start owner settings
  have htruthful : (start owner settings).Truthful := .start owner settings
  exact .of_slotted (hslotted.run events) (htruthful.run hslotted events)

/-- Two loads miss the cache before either of them boards. The second one joins the flight of the
first one, issues its read and is handed the same failure. -/
example :
    let traffic := (start 0 .standard).run
      [.call .zero, .call .zero, .board 0, .board 1, .depart 1, .depart 0, .answer 0 (.ok none),
        .keep 0, .release 0, .deliver 0, .deliver 1]
    traffic.callers = [.handed .zero 0 (.error (.notFound .zero)),
      .handed .zero 0 (.error (.notFound .zero))] ∧
    traffic.loader.fetches = 1 ∧ traffic.loader.joined = 1 :=
  ⟨rfl, rfl, rfl⟩

end Traffic

end Patricia
