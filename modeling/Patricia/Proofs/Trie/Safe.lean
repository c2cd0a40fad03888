import Patricia.Forest
import Patricia.Proofs.Guarded.Commit
import Patricia.Proofs.Trie.Authentic

/-!
# No store makes a trie break a precondition

A trie is opened on any hash over a store of which nothing is known, and receives any requests. At
every point it is lawful, whichever requests failed before. So each request ends with its result or
with a failure that a caller has to expect, and on its way every precondition holds: the requests
that test them all do the same, and so does the reading of what the store answers
(`Session.after_safe`). A cache that is too large to be set up is refused before there is a trie, so
nothing is tested of its capacity here (`Session.planted_lawful`).
-/

namespace Patricia.Session

variable {σ : Type} [NodeStore σ] {α : Type} [TrieValue α]

/-- A session of a trie that is opened on any hash. Nothing is recorded of what is there. -/
def openedAt (origin : Hash) (store : σ) (owner capacity : Nat) (hpos : 0 < capacity) :
    Session σ α :=
  ⟨.openAt (.new owner capacity hpos) origin, store, ∅⟩

variable {session : Session σ α}

/-- A request leaves the trie lawful and fails only as it may. -/
theorem step_lawful (hcodec : TrieValue.Refuses α) (h : session.trie.Lawful)
    (request : Request α) :
    (session.step request).2.trie.Lawful ∧
      ∀ failure, (session.step request).1 = .error failure →
        session.trie.MayFail session.store request failure := by
  obtain ⟨outcome, later, after, hattempt, hlater, hfails⟩ := h.attempt hcodec session.store request
  rw [step, hattempt]
  exact ⟨hlater, hfails⟩

/-- After any requests the trie is lawful. -/
theorem after_lawful (hcodec : TrieValue.Refuses α) (h : session.trie.Lawful)
    (requests : List (Request α)) : (session.after requests).trie.Lawful := by
  induction requests using List.reverseRecOn with
  | nil => exact h
  | append_singleton requests request ih =>
      rw [after_concat]
      exact (step_lawful hcodec ih request).1

/-- A trie is opened on any hash, over any store and with a cache of any capacity, and receives any
requests, each of which may fail. The codec of its values refuses bytes only as an invalid value.
Then each request succeeds, or it fails because there is no node, or what is there is none, or the
store fails, or, if it is a lookup, because the codec refuses the bytes that were found. It fails in
no other way, unless the store itself fails with an error of another kind, which is then the one
that the request fails with. The request does the same as the one that tests every precondition on
its way and fails if one does not hold, and whatever bytes are read are read as they are where that
is tested, too. -/
theorem after_safe (hcodec : TrieValue.Refuses α) (origin : Hash) (store : σ)
    (owner capacity : Nat) (hpos : 0 < capacity) (requests : List (Request α))
    (request : Request α) :
    let session := (openedAt origin store owner capacity hpos).after requests
    (∀ failure, (session.step request).1 = .error failure → request.Expects failure ∨
      ∃ error, failure = .error error ∧ session.trie.Reports session.store request error) ∧
    Guarded.attempt session.trie session.store request =
      session.trie.attempt session.store request ∧
    ∀ bytes, Guarded.decode bytes = Guarded.ofDecode ((·.val) <$> Node.decode bytes) := by
  intro session
  have hopened : (openedAt origin store owner capacity hpos : Session σ α).trie.Lawful :=
    .openAt owner capacity hpos origin
  have hlawful : session.trie.Lawful := after_lawful hcodec hopened requests
  exact ⟨(step_lawful hcodec hlawful request).2,
    Guarded.attempt_eq hlawful.standing.proper session.store request, Guarded.decode_eq⟩

/-- A trie that is planted over a store, opened on any hash with a cache as some settings have it,
is that of a session, so it is lawful after any requests. Nothing is planted only if no cache can be
set up for the capacity. -/
theorem planted_lawful (hcodec : TrieValue.Refuses α) (forest : Forest σ) (name : String)
    (kind : ValueKind) (settings : Settings) (origin : Hash) (requests : List (Request α)) :
    match forest.plant name kind fun owner ↦ do
        return .backed (.openAt (← Loader.ofSettings owner settings) origin) with
    | .ok grown => ∃ trie, grown.find? name = some ⟨name, kind, .backed trie⟩ ∧
        ((⟨trie, grown.store, ∅⟩ : Session σ α).after requests).trie.Lawful
    | .error breach => breach = .cacheTooLarge ∧ Recency.largest < settings.cacheCapacity := by
  rw [Forest.plant_ofSettings]
  by_cases hfits : settings.cacheCapacity ≤ Recency.largest
  · rw [if_pos hfits]
    refine ⟨_, List.find?_cons_of_pos (beq_self_eq_true name), ?_⟩
    exact after_lawful hcodec (.openAt _ _ settings.positive origin) requests
  · rw [if_neg hfits]
    exact ⟨rfl, Nat.not_le.mp hfits⟩

/-! ### A store that fails in several ways -/

/-- The form of a leaf whose value is no text. -/
def garbled : Bytes :=
  Node.leafForm (Bytes.nibbles [0x01]) [0xff]

/-- A session over a store that refuses the first read, has an error of another kind for the second
one and nothing for the third, and answers the others with the leaf. -/
def failing : Session Script String :=
  openedAt (keccak256 garbled)
    ⟨0, fun number ↦
      if number = 1 then .error (.store (.refused "down"))
      else if number = 2 then .error (.unsupported .encodingOfStored)
      else .ok (if number = 3 then none else garbled)⟩
    0 1 Nat.one_pos

set_option maxRecDepth 100000 in
/-- Four lookups fail, each for another reason, and a change that comes then succeeds. The store
itself reports what the second one fails with, and the last one fails as is expected. -/
theorem failing_safe :
    let get : Request String := .get [0x01]
    let second := failing.after [get]
    (failing.step get).1 = .error (.error (.store (.refused "down"))) ∧
      (second.step get).1 = .error (.error (.unsupported .encodingOfStored)) ∧
      ((failing.after [get, get]).step get).1 =
        .error (.error (.notFound (keccak256 garbled))) ∧
      ((failing.after [get, get, get]).step get).1 = .error (.error (.invalidValue ⟨0, some 1⟩)) ∧
      ((failing.after [get, get, get, get]).step (.change (.put [0x02] "two"))).1 = .ok .done ∧
      second.trie.Reports second.store get (.unsupported .encodingOfStored) ∧
      get.Expects (.error (.invalidValue ⟨0, some 1⟩)) := by
  intro get second
  have hsecond : (second.step get).1 = .error (.error (.unsupported .encodingOfStored)) := by
    decide +kernel
  have hlast : ((failing.after [get, get, get]).step get).1 =
      .error (.error (.invalidValue ⟨0, some 1⟩)) := by
    decide +kernel
  have hsafe := after_safe (ValueKind.refuses .text) (keccak256 garbled) failing.store 0 1
    (by decide)
  refine ⟨by decide +kernel, hsecond, by decide +kernel, hlast, by decide +kernel, ?_, ?_⟩
  · rcases (hsafe [get] get).1 _ hsecond with hexpected | ⟨_, ⟨⟩, hreports⟩
    · exact hexpected.elim
    · exact hreports
  · rcases (hsafe [get, get, get] get).1 _ hlast with hexpected | ⟨_, ⟨⟩, hash, hheard⟩
    · exact hexpected
    · have hlegible : ∀ entry ∈ ((failing.after [get, get, get]).trie.root.find?
          (Bytes.nibbles [0x01])).heard (failing.after [get, get, get]).trie.loader
            (failing.after [get, get, get]).store, entry.2.isOk = true := by
        decide +kernel
      cases hlegible _ hheard

end Patricia.Session
