import Patricia.Proofs.Format.Compact

/-!
# Reading undoes writing

The form of a node is read as the node with references in place of its children of 32 bytes or more,
and what is read has the node's hash, form and reference (`Node.InPlace.decode_rlp`). The children
can be anything behind such a reference. Those that are written in place have to be nodes that can
be put together or read (`Node.Genuine`), and so have the nodes in place below them.

Such a child may itself stand in place in bytes that are read. They stay the form of the node, which
is then read as it is, with the long child where it was (`Node.swollen_unabridged`).
-/

namespace Patricia

namespace Node

variable {node : Node} {source bytes : Bytes} {read : Resolved} {p : Node → Prop}

/-- A node and all nodes that are written in place below it have a property. -/
def InPlace (p : Node → Prop) : Node → Prop
  | .null => p .null
  | .leaf stamp path value => p (.leaf stamp path value)
  | .extension stamp first rest child =>
      p (.extension stamp first rest child) ∧ (child.encoding.length < 32 → child.InPlace p)
  | .branch stamp occupied slots value =>
      p (.branch stamp occupied slots value) ∧
        ∀ slot, (slots slot).encoding.length < 32 → (slots slot).InPlace p
  | .stored stamp hash => p (.stored stamp hash)

/-- A node that can be put together or read: it obeys the rules for its kind, it is no branch with
an empty value, and if it was read from bytes it is what they are read as, given out as any
instance. -/
structure Genuine (node : Node) : Prop where
  proper : node.Proper fun _ ↦ True
  isHollow_eq : node.isHollow = false
  drawn : ∀ source, node.stamp.source = some source →
    ∃ read, decode source = .ok read ∧ node.issue 0 0 = read.val.issue 0 0

/-- What holds of a node and those in place below it holds of the node. -/
theorem InPlace.self (h : node.InPlace p) : p node := by
  cases node with
  | null | leaf | stored => exact h
  | extension | branch => exact h.1

/-! ## Instances and bytes do not matter -/

section Restamp

variable {change : List Nat → Stamp → Stamp}
  (hchange : ∀ position stamp, (change position stamp).source = stamp.source)

include hchange

/-- Other instances of a tree have its hash, if they were read from the same bytes. -/
theorem hash_restamp (node : Node) (position : List Nat) :
    (node.restamp change position).hash = node.hash := by
  have hencoding := (encoding_restamp hchange node position).1
  cases node with
  | null | stored => rfl
  | leaf | extension | branch => exact congrArg keccak256 hencoding

/-- Other instances of a tree are the same in short, if they were read from the same bytes. -/
theorem abridged_restamp (node : Node) (position : List Nat) :
    (node.restamp change position).abridged = node.abridged := by
  induction node generalizing position with
  | null | leaf | stored => rfl
  | extension stamp first rest child ih =>
      rw [restamp, abridged, abridged, ih, (encoding_restamp hchange child _).1,
        hash_restamp hchange]
  | branch stamp occupied slots value ih =>
      simp only [restamp_branch, abridged, ih, (encoding_restamp hchange (slots _) _).1,
        hash_restamp hchange]

/-- Other instances of a node have long children in place where it has. -/
theorem snug_restamp (node : Node) (position : List Nat) :
    (node.restamp change position).Snug ↔ node.Snug := by
  cases node with
  | null | leaf | stored => exact Iff.rfl
  | extension stamp first rest child =>
      show _ < 32 ∨ _ = true ↔ _
      rw [(encoding_restamp hchange child _).1, isStored_restamp]
      exact Iff.rfl
  | branch stamp occupied slots value =>
      rw [restamp_branch]
      show (∀ slot, _ < 32 ∨ _ = true) ↔ _
      simp only [(encoding_restamp hchange (slots _) _).1, isStored_restamp]
      exact Iff.rfl

end Restamp

/-- A node that was given out is the same in short. -/
theorem abridged_issue (owner serial : Nat) (node : Node) :
    (node.issue owner serial).abridged = node.abridged := by
  refine abridged_restamp ?_ node []
  intro position stamp
  rfl

/-- A node that was given out has long children in place where it had. -/
theorem snug_issue (owner serial : Nat) (node : Node) :
    (node.issue owner serial).Snug ↔ node.Snug := by
  refine snug_restamp ?_ node []
  intro position stamp
  rfl

/-- The bytes that a node was read from do not matter for the node in short. -/
theorem abridged_readFrom (source : Bytes) (node : Node) :
    (node.readFrom source).abridged = node.abridged := by
  cases node <;> rfl

/-! ## Nodes as they stand in bytes -/

namespace StandsIn

variable (h : node.StandsIn bytes)

include h

/-- All stamps of a node that stands in bytes are blank. -/
theorem blank : node.Blank :=
  h.literal.imp fun _ hnode ↦ hnode.blank

/-- A node that stands in bytes has them as its form. -/
theorem encoding_eq : node.encoding = bytes := by
  rw [encoding_eq_form (by rw [h.blank.self]; rfl), h.form_eq]

/-- A node that stands in bytes is legible. -/
theorem legible : node.Legible :=
  legible_of_literal h.literal

/-- The bytes that a node stands in are read as the node. -/
theorem decode_eq (hformed : node.isFormed = true) (hfits : bytes.length < 2 ^ 64) :
    ∃ read, decode bytes = .ok read ∧ read.val = node.readFrom bytes := by
  obtain ⟨read, hread, hval⟩ := h.legible.decode_form hformed (by rwa [h.form_eq])
  rw [h.form_eq] at hread hval
  exact ⟨read, hread, by rw [hval, h.blank.abridged_of_snug h.snug]⟩

end StandsIn

/-! ## Genuine nodes -/

/-- A node that was put together by the rules is genuine. -/
theorem genuine_of_new (hproper : node.Proper fun _ ↦ True) (hhollow : node.isHollow = false)
    (hsource : node.stamp.source = none) : node.Genuine :=
  ⟨hproper, hhollow, fun source hsome ↦ by rw [hsource] at hsome; cases hsome⟩

/-- Nodes that are as they stand in bytes are genuine, and so are those in place below them. -/
theorem inPlace_of_literal (h : node.All Literal) : node.InPlace Genuine := by
  have hself : ∀ {node : Node}, node.Literal → node.Genuine := fun hnode ↦
    genuine_of_new hnode.proper hnode.isHollow_eq (by rw [hnode.blank]; rfl)
  induction node with
  | null | leaf | stored => exact hself h
  | extension stamp first rest child ih => exact ⟨hself h.1, fun _ ↦ ih h.2⟩
  | branch stamp occupied slots value ih =>
      exact ⟨hself h.1, fun slot _ ↦ ih slot (h.2 slot)⟩

/-- A node that is read has a form. -/
theorem isFormed_of_decode (h : decode bytes = .ok read) : read.val.isFormed = true := by
  rw [isFormed, (decode_wellFormed h).2, read.property]
  rfl

/-- What is read from bytes is genuine, with the nodes in place below it. -/
theorem inPlace_of_decode (h : decode bytes = .ok read) : read.val.InPlace Genuine := by
  have hproper := (decode_wellFormed h).1.self
  obtain ⟨⟨node, hstored⟩, hread, hliteral, -⟩ := decode_literal h
  have hself : read.val.Genuine := by
    refine ⟨hproper, ?_, fun source hsource ↦ ?_⟩
    · rw [hread]
      have hhollow := hliteral.self.isHollow_eq
      cases node <;> exact hhollow
    · cases (source_of_decode h).symm.trans hsource
      exact ⟨read, h, rfl⟩
  have hbelow := inPlace_of_literal hliteral
  rw [hread] at hself ⊢
  cases node with
  | null | leaf => exact hself
  | extension | branch => exact ⟨hself, hbelow.2⟩
  | stored => cases hstored

/-! ## Nodes in short -/

/-- A node that was read from bytes without a long child in place is in short as it stands there. -/
theorem Genuine.abridged_of_source (h : node.Genuine) (hsource : node.stamp.source = some source)
    (hsnug : node.Snug ∨ source.length < 32) : node.abridged.StandsIn source := by
  obtain ⟨read, hdecode, hsame⟩ := h.drawn source hsource
  have hread : read.val.Snug ∨ source.length < 32 := by
    refine hsnug.imp_left fun hnode ↦ ?_
    rwa [← snug_issue 0 0, ← hsame, snug_issue]
  obtain ⟨blank, rfl, hblank⟩ := decode_exact hdecode hread
  have habridged : node.abridged = blank.val := by
    rw [← abridged_issue 0 0, hsame, abridged_issue, Resolved.readFrom, abridged_readFrom,
      hblank.blank.abridged_of_snug hblank.snug]
  rwa [habridged]

/-- What a parent's form tells of a child is as it stands there. -/
structure Told (child : Node) : Prop where
  literal : child.cited.All Literal
  snug : child.cited.encoding.length < 32 ∨ child.cited.isStored = true
  reference_eq : child.cited.reference = child.reference

/-- A parent's form tells of a child that stands in its own form if it is short. -/
theorem told_of_short {child : Node}
    (h : child.encoding.length < 32 → child.abridged.StandsIn child.encoding) : child.Told := by
  by_cases hshort : child.encoding.length < 32
  · have hcited : child.cited = child.abridged := if_pos hshort
    have hencoding := (h hshort).encoding_eq
    have hlength : child.abridged.encoding.length < 32 := by rwa [hencoding]
    refine ⟨hcited ▸ (h hshort).literal, Or.inl (hcited ▸ hlength), ?_⟩
    rw [hcited, reference_of_short (isStored_of_short hshort) hshort,
      reference_of_short (isStored_of_short hlength) hlength, hencoding]
  · have hcited : child.cited = .stored .blank child.hash := if_neg hshort
    rw [Nat.not_lt] at hshort
    refine ⟨?_, Or.inr ?_, ?_⟩
    · rw [hcited]
      exact ⟨rfl, trivial, rfl⟩
    · rw [hcited]
      rfl
    · rw [hcited, reference_of_long hshort]
      rfl

/-- A node is in short as it stands in its form, if it was put together, has no long child in place,
or is short. -/
theorem InPlace.abridged_standsIn (h : node.InPlace Genuine) (hstored : node.isStored = false)
    (hplace : node.stamp.source = none ∨ node.Snug ∨ node.encoding.length < 32) :
    node.abridged.StandsIn node.encoding := by
  have hread : ∀ {node : Node} {source : Bytes}, node.Genuine → node.isStored = false →
      node.stamp.source = some source →
      node.stamp.source = none ∨ node.Snug ∨ node.encoding.length < 32 →
      node.abridged.StandsIn node.encoding := by
    intro node source h hstored hsource hplace
    have hencoding := encoding_eq_source hsource hstored
    rw [hencoding] at hplace ⊢
    refine h.abridged_of_source hsource (hplace.resolve_left ?_)
    rw [hsource]
    exact nofun
  induction node with
  | null => exact ⟨⟨rfl, trivial, rfl⟩, trivial, rfl⟩
  | leaf stamp path value =>
      cases hsource : (leaf stamp path value).stamp.source with
      | some source => exact hread h rfl hsource hplace
      | none =>
          rw [encoding_eq_form hsource]
          exact ⟨⟨rfl, trivial, rfl⟩, trivial, rfl⟩
  | extension stamp first rest child ih =>
      cases hsource : (extension stamp first rest child).stamp.source with
      | some source => exact hread h.1 rfl hsource hplace
      | none =>
          have hchild : child.Told := told_of_short fun hshort ↦
            ih (h.2 hshort) (isStored_of_short hshort) (Or.inr (Or.inr hshort))
          have hnull : child.cited.isNull = false := by
            rw [isNull_cited]
            exact h.1.proper
          rw [encoding_eq_form hsource]
          exact ⟨⟨⟨rfl, hnull, rfl⟩, hchild.literal⟩, hchild.snug,
            congrArg (extensionForm (first :: rest)) hchild.reference_eq⟩
  | branch stamp occupied slots value ih =>
      cases hsource : (branch stamp occupied slots value).stamp.source with
      | some source => exact hread h.1 rfl hsource hplace
      | none =>
          have hslots : ∀ slot, (slots slot).Told := fun slot ↦ told_of_short fun hshort ↦
            ih slot (h.2 slot hshort) (isStored_of_short hshort) (Or.inr (Or.inr hshort))
          obtain ⟨hsound, hforked, hvalue⟩ := h.1.proper
          have hproper : (branch .blank occupied (fun slot ↦ (slots slot).cited) value).Proper
              fun _ ↦ True := by
            refine ⟨fun slot ↦ ?_, ?_, hvalue⟩
            · rw [isNull_cited]
              exact hsound slot
            · simpa only [Slots.Forked, isNull_cited] using hforked
          rw [encoding_eq_form hsource]
          exact ⟨⟨⟨rfl, hproper, h.1.isHollow_eq⟩, fun slot ↦ (hslots slot).literal⟩,
            fun slot ↦ (hslots slot).snug,
            congrArg (branchForm · value) (funext fun slot ↦ (hslots slot).reference_eq)⟩
  | stored => cases hstored

/-! ## The node that is read -/

/-- Nodes with one form have one hash and one reference. -/
theorem hash_and_reference_eq {other : Node} (hstored : node.isStored = false)
    (hstored' : other.isStored = false) (h : node.encoding = other.encoding) :
    node.hash = other.hash ∧ node.reference = other.reference := by
  have hhash : node.hash = other.hash := by
    rw [hash_eq_keccak256 hstored, hash_eq_keccak256 hstored', h]
  refine ⟨hhash, ?_⟩
  by_cases hshort : node.encoding.length < 32
  · rw [reference_of_short hstored hshort, reference_of_short hstored' (h ▸ hshort), h]
  · rw [Nat.not_lt] at hshort
    rw [reference_of_long hshort, reference_of_long (h ▸ hshort), hhash]

/-- A node that is not in short as it stands in its form was read from the form, which is read as
the node again. -/
theorem Genuine.decode_source (h : node.Genuine) (hstored : node.isStored = false)
    (hsource : node.stamp.source ≠ none) :
    ∃ read, decode node.encoding = .ok read ∧ read.val.plain = node.plain := by
  obtain ⟨source, hsome⟩ := Option.ne_none_iff_exists'.mp hsource
  obtain ⟨read, hdecode, hsame⟩ := h.drawn source hsome
  refine ⟨read, by rwa [encoding_eq_source hsome hstored], ?_⟩
  rw [← plain_issue 0 0, ← hsame, plain_issue]

/-- A node with a form has one in short. -/
theorem isFormed_abridged (h : node.isFormed = true) : node.abridged.isFormed = true := by
  cases node with
  | null | stored => cases h
  | leaf | extension | branch => rfl

/-- A node that stands in its form in short is read from it in short. -/
theorem decode_of_standsIn (h : node.abridged.StandsIn node.encoding)
    (hformed : node.isFormed = true) (hfits : node.encoding.length < 2 ^ 64) :
    ∃ read, decode node.encoding = .ok read ∧ read.val.plain = node.abridged := by
  obtain ⟨read, hdecode, hval⟩ := h.decode_eq (isFormed_abridged hformed) hfits
  refine ⟨read, hdecode, ?_⟩
  rw [hval, plain_readFrom, h.blank.plain_eq]

/-- What is read from the form of a node that was put together has no long child in place. -/
theorem InPlace.snug_of_decode (h : node.InPlace Genuine) (hformed : node.isFormed = true)
    (hnew : node.stamp.source = none) (hfits : node.encoding.length < 2 ^ 64)
    (hdecode : decode node.encoding = .ok read) : read.val.Snug := by
  have hstands := h.abridged_standsIn (isStored_of_formed hformed) (Or.inl hnew)
  obtain ⟨other, hother, hval⟩ := hstands.decode_eq (isFormed_abridged hformed) hfits
  cases hdecode.symm.trans hother
  rw [hval, Snug, children_readFrom]
  exact hstands.snug

/-- Only a node without a long child in place is the same in short. -/
theorem snug_of_plain_eq (h : node.plain = node.abridged) : node.Snug := by
  have hchild : ∀ {child : Node} {position : List Nat},
      child.restamp (fun _ _ ↦ .blank) position = child.cited →
        child.encoding.length < 32 ∨ child.isStored = true := by
    intro child position hcited
    by_cases hshort : child.encoding.length < 32
    · exact Or.inl hshort
    · rw [cited, if_neg hshort] at hcited
      have hstored := congrArg isStored hcited
      rw [isStored_restamp] at hstored
      exact Or.inr hstored
  cases node with
  | null | leaf | stored => trivial
  | extension stamp first rest child => exact hchild (Node.extension.inj h).2.2.2
  | branch stamp occupied slots value =>
      rw [plain, restamp_branch, abridged] at h
      exact fun slot ↦ hchild (congrFun (Node.branch.inj h).2.2.1 slot)

/-- The form of every node that can be put together or read, with the nodes in place below it, is
read. What is read has the node's hash, form and reference. It is the node with references in place
of its children of 32 bytes or more exactly if the node was put together or has no such child in
place. A node that was itself read is read again as it is. It is assumed that the length of the form
fits in 64 bits. -/
theorem InPlace.decode_rlp (h : node.InPlace Genuine) (hformed : node.isFormed = true)
    (hfits : node.encoding.length < 2 ^ 64) :
    ∃ bytes read, node.rlp = .ok bytes ∧ decode bytes = .ok read ∧
      (read.val.plain = node.abridged ↔ node.stamp.source = none ∨ node.Snug) ∧
      (node.stamp.source ≠ none → read.val.plain = node.plain) ∧
      read.val.hash = node.hash ∧ read.val.rlp = .ok bytes ∧
      read.val.reference = node.reference := by
  have hstored := isStored_of_formed hformed
  have hshort := fun hplace : node.stamp.source = none ∨ node.Snug ↦
    decode_of_standsIn (h.abridged_standsIn hstored (hplace.imp_right Or.inl)) hformed hfits
  have hsame := h.self.decode_source hstored
  obtain ⟨read, hdecode⟩ : ∃ read, decode node.encoding = .ok read := by
    by_cases hsource : node.stamp.source = none
    · obtain ⟨read, hdecode, -⟩ := hshort (Or.inl hsource)
      exact ⟨read, hdecode⟩
    · obtain ⟨read, hdecode, -⟩ := hsame hsource
      exact ⟨read, hdecode⟩
  have hplain : node.stamp.source ≠ none → read.val.plain = node.plain := by
    intro hsource
    obtain ⟨other, hother, hplain⟩ := hsame hsource
    cases hdecode.symm.trans hother
    exact hplain
  have hencoding := encoding_of_decode hdecode
  obtain ⟨hhash, hreference⟩ := hash_and_reference_eq read.property hstored hencoding
  refine ⟨node.encoding, read, rlp_eq_encoding hstored, hdecode, ⟨fun habridged ↦ ?_, fun h ↦ ?_⟩,
    hplain, hhash, hencoding ▸ rlp_eq_encoding read.property, hreference⟩
  · by_cases hsource : node.stamp.source = none
    · exact Or.inl hsource
    · exact Or.inr (snug_of_plain_eq ((hplain hsource).symm.trans habridged))
  · obtain ⟨other, hother, habridged⟩ := hshort h
    cases hdecode.symm.trans hother
    exact habridged

/-- Two short leaves. -/
def twig : Slots :=
  (Slots.empty.set (lowNibble 0) (.leaf .blank [] [0x78])).set (lowNibble 1)
    (.leaf .blank [] [0x79])

/-- A leaf of more than 32 bytes, an extension over a branch in place, and a reference. -/
def bough : Slots :=
  ((Slots.empty.set (lowNibble 1) (.leaf .blank [lowNibble 2] (List.replicate 32 0x61))).set
    (lowNibble 7) (.extension .blank (lowNibble 0xa) [lowNibble 0xb]
      (.ofSlots .blank twig none))).set (lowNibble 0xb) (.stored .blank emptyRoot)

/-- A branch over them with a value of its own is read from its form, and so is the node that was
read from the form. -/
theorem bough_decodes :
    (ofSlots .blank bough (some [0x2a])).InPlace Genuine ∧
      (ofSlots .blank bough (some [0x2a])).encoding.length < 2 ^ 64 ∧
      ∃ bytes read, (ofSlots .blank bough (some [0x2a])).rlp = .ok bytes ∧
        decode bytes = .ok read ∧
        read.val.plain = (ofSlots .blank bough (some [0x2a])).abridged ∧
        read.val.stamp.source = some bytes ∧ read.val.InPlace Genuine ∧
        ∃ again, read.val.rlp = .ok bytes ∧ decode bytes = .ok again ∧
          again.val.plain = read.val.abridged ∧ again.val.hash = read.val.hash ∧
          again.val.reference = read.val.reference := by
  have hfits : (ofSlots .blank bough (some [0x2a])).encoding.length < 2 ^ 64 := by decide +kernel
  have htwig : twig.Sound := Slots.set_sound (Slots.set_sound Slots.empty_sound _ _) _ _
  have hbough : bough.Sound :=
    Slots.set_sound (Slots.set_sound (Slots.set_sound Slots.empty_sound _ _) _ _) _ _
  have hleaf : ∀ path value, (leaf .blank path value).InPlace Genuine := fun path value ↦
    genuine_of_new trivial rfl rfl
  have hnull : null.InPlace Genuine := genuine_of_new trivial rfl rfl
  have hinner : (ofSlots .blank twig none).InPlace Genuine := by
    refine ⟨genuine_of_new ⟨htwig, (htwig.forked_iff none).mpr (by decide), nofun⟩ rfl rfl, ?_⟩
    intro slot _
    simp only [twig, Slots.node_set]
    split
    · exact hleaf _ _
    split
    · exact hleaf _ _
    · exact hnull
  have hwhole : (ofSlots .blank bough (some [0x2a])).InPlace Genuine := by
    have hforked := (hbough.forked_iff (some [0x2a])).mpr (by decide)
    refine ⟨genuine_of_new ⟨hbough, hforked, fun _ _ ↦ trivial⟩ rfl rfl, ?_⟩
    intro slot hshort
    simp only [bough, Slots.node_set]
    split
    · exact genuine_of_new trivial rfl rfl
    split
    · exact ⟨genuine_of_new rfl rfl rfl, fun _ ↦ hinner⟩
    split
    · exact hleaf _ _
    · exact hnull
  obtain ⟨bytes, read, hrlp, hdecode, habridged, -⟩ := hwhole.decode_rlp rfl hfits
  obtain rfl : _ = bytes := Except.ok.inj hrlp
  -- The node that was read is as good as the first, and has no long child in place either.
  have hread := inPlace_of_decode hdecode
  have hsnug := hwhole.snug_of_decode rfl rfl hfits hdecode
  have hreadRlp := rlp_eq_encoding read.property
  rw [encoding_of_decode hdecode] at hreadRlp
  obtain ⟨bytes, again, hagain, hredecode, hshort, -, hhash, -, hreference⟩ :=
    hread.decode_rlp (isFormed_of_decode hdecode) (by rwa [encoding_of_decode hdecode])
  obtain rfl := Except.ok.inj (hreadRlp.symm.trans hagain)
  exact ⟨hwhole, hfits, _, read, hrlp, hdecode, habridged.mpr (Or.inl rfl),
    source_of_decode hdecode, hread, again, hreadRlp, hredecode, hshort.mpr (Or.inr hsnug), hhash,
    hreference⟩

/-- An extension that is read with a leaf of 43 bytes in place is genuine, but it is not read from
its own form with a reference in place of the leaf. -/
theorem swollen_unabridged :
    ∃ read, decode swollen = .ok read ∧ read.val.InPlace Genuine ∧ read.val.isFormed = true ∧
      read.val.encoding.length < 2 ^ 64 ∧
      ¬∃ bytes again, read.val.rlp = .ok bytes ∧ decode bytes = .ok again ∧
        again.val.plain = read.val.abridged := by
  obtain ⟨read, h, hlong⟩ : ∃ read, decode swollen = .ok read ∧ ¬read.val.Snug := by
    refine ⟨⟨_, rfl⟩, decode_eq_ok_iff.mpr ⟨_, swollen_spelled, rfl, rfl⟩, ?_⟩
    rintro (hshort | hstored)
    · exact absurd hshort (by decide)
    · cases hstored
  have hencoding := encoding_of_decode h
  refine ⟨read, h, inPlace_of_decode h, isFormed_of_decode h, ?_, ?_⟩
  · rw [hencoding]
    decide
  · rintro ⟨bytes, again, hrlp, hagain, hsame⟩
    rw [rlp_eq_encoding read.property, hencoding] at hrlp
    cases hrlp
    cases h.symm.trans hagain
    exact hlong (snug_of_plain_eq hsame)

end Node

end Patricia
