import Mathlib.Data.List.Dedup
import Mathlib.Data.List.Nodup
import Mathlib.Data.List.Perm.Basic
import Mathlib.Data.List.Perm.Subperm
import Refactory.Interner

/-!
# Names and texts

An interner is sound when each shard holds, at different places, texts that hash to it, and when its
table of places says where they are. Interning a text keeps a sound interner sound, moves no text
and adds at most that text. A run of any length is then known by its texts alone: which names are
equal, what each name says at any later time and how many texts there are.

Nothing is assumed of a run but that its texts fit: no shard has more different texts than places
(`Interner.Fits`). That no call fails then is part of what is proved.
-/
namespace Refactory

namespace InternedName

/-- A shard fits in a word. -/
theorem toNat_ofNat_shard {number : Nat}
    (small : number < shardCount) : (UInt32.ofNat number).toNat = number := by
  rw [UInt32.toNat_ofNat']
  exact Nat.mod_eq_of_lt (Nat.lt_trans small (by decide))

/-- A place fits in a word. -/
theorem toNat_ofNat_place {count : Nat} (fits : count ≤ lastPlace.toNat) :
    (UInt32.ofNat count).toNat = count := by
  rw [UInt32.toNat_ofNat']
  exact Nat.mod_eq_of_lt (Nat.lt_of_le_of_lt fits (by decide))

/-- A word is its two parts side by side. -/
theorem toNat_new {number count : Nat} (small : number < shardCount)
    (fits : count ≤ lastPlace.toNat) :
    (new (.ofNat number) (.ofNat count)).word.toNat = number * 0x10000000 + count := by
  have inPlace : count < 2 ^ 28 := Nat.lt_succ_of_le fits
  have inWord : number <<< 28 < 2 ^ 32 := by
    rw [Nat.shiftLeft_eq]
    exact Nat.mul_lt_mul_of_pos_right small (by decide)
  have bits : (28 : UInt32).toNat % 32 = 28 := by decide
  rw [new, UInt32.toNat_or, UInt32.toNat_shiftLeft, toNat_ofNat_shard small, toNat_ofNat_place fits,
    bits, Nat.mod_eq_of_lt inWord, ← Nat.shiftLeft_add_eq_or_of_lt inPlace, Nat.shiftLeft_eq]

/-- The shard of a name is what its word starts with. -/
theorem shard_eq (name : InternedName) : name.shard = name.word.toNat / 0x10000000 := by
  rw [shard, UInt32.toNat_shiftRight]
  exact Nat.shiftRight_eq_div_pow _ 28

/-- The place of a name is what its word ends with. -/
theorem place_eq (name : InternedName) : name.place = name.word.toNat % 0x10000000 := by
  rw [place, UInt32.toNat_and]
  exact Nat.and_two_pow_sub_one_eq_mod _ 28

/-- A name is known by its shard and its place. -/
theorem eq_of_parts {name other : InternedName} (shards : name.shard = other.shard)
    (places : name.place = other.place) :
    name = other := by
  rw [shard_eq, shard_eq] at shards
  rw [place_eq, place_eq] at places
  have words : name.word.toNat = other.word.toNat := by omega
  cases name
  cases other
  exact congrArg mk (UInt32.toNat_inj.mp words)

/-- The shard of a name is the one it was made for. -/
theorem shard_new {number count : Nat} (small : number < shardCount)
    (fits : count ≤ lastPlace.toNat) :
    (new (.ofNat number) (.ofNat count)).shard = number := by
  have inPlace : count < 2 ^ 28 := Nat.lt_succ_of_le fits
  rw [shard_eq, toNat_new small fits]
  omega

/-- The place of a name is the one it was made for. -/
theorem place_new {number count : Nat} (small : number < shardCount)
    (fits : count ≤ lastPlace.toNat) :
    (new (.ofNat number) (.ofNat count)).place = count := by
  have inPlace : count < 2 ^ 28 := Nat.lt_succ_of_le fits
  rw [place_eq, toNat_new small fits]
  omega

end InternedName

/-- Every text has one of the shards. -/
theorem Interner.shardOf_lt (text : String) : shardOf text < InternedName.shardCount :=
    Nat.mod_lt _ (by decide)

namespace InternShard

variable {shard : InternShard} {number : Nat} {text : String}

/-- A shard whose table says where its texts are, all of which hash to it. -/
structure Sound (shard : InternShard) (number : Nat) : Prop where
  /-- The table has the place of each text and no other place. -/
  placed : ∀ text place, shard.places.lookup text = some place ↔
    shard.texts[place.toNat]? = some text
  /-- There are no more texts than places. -/
  fits : shard.texts.size ≤ InternedName.lastPlace.toNat + 1
  /-- Each text hashes to the shard. -/
  hashed : ∀ text ∈ shard.texts, Interner.shardOf text = number

/-- The place of a text is in the table. -/
theorem Sound.lookup_of_getElem? (sound : shard.Sound number) {index : Nat}
    (stored : shard.texts[index]? = some text) :
    shard.places.lookup text = some (.ofNat index) := by
  obtain ⟨inside, -⟩ := Array.getElem?_eq_some_iff.mp stored
  have small : index ≤ InternedName.lastPlace.toNat :=
    Nat.le_of_lt_succ (Nat.lt_of_lt_of_le inside sound.fits)
  rw [sound.placed, InternedName.toNat_ofNat_place small]
  exact stored

/-- A text has one place. -/
theorem Sound.index_unique (sound : shard.Sound number) {index other : Nat}
    (stored : shard.texts[index]? = some text)
    (again : shard.texts[other]? = some text) : index = other := by
  obtain ⟨inside, -⟩ := Array.getElem?_eq_some_iff.mp stored
  obtain ⟨otherInside, -⟩ := Array.getElem?_eq_some_iff.mp again
  have same : UInt32.ofNat index = UInt32.ofNat other := by
    rw [← Option.some.injEq, ← sound.lookup_of_getElem? stored, sound.lookup_of_getElem? again]
  have values := congrArg UInt32.toNat same
  rwa [InternedName.toNat_ofNat_place (Nat.le_of_lt_succ (Nat.lt_of_lt_of_le inside sound.fits)),
    InternedName.toNat_ofNat_place (Nat.le_of_lt_succ (Nat.lt_of_lt_of_le otherInside sound.fits))]
    at values

/-- No text is stored twice. -/
theorem Sound.nodup (sound : shard.Sound number) : shard.texts.toList.Nodup := by
  rw [List.nodup_iff_getElem?_ne_getElem?]
  intro index other before inside same
  obtain ⟨text, stored⟩ : ∃ text, shard.texts[index]? = some text :=
    ⟨_, Array.getElem?_eq_getElem (Nat.lt_trans before inside)⟩
  have again : shard.texts[other]? = some text := by
    rw [← stored, ← Array.getElem?_toList, ← Array.getElem?_toList, same]
  exact Nat.ne_of_lt before (sound.index_unique stored again)

/-- A text without a place is not stored. -/
theorem Sound.lookup_eq_none
    (sound : shard.Sound number) : shard.places.lookup text = none ↔ text ∉ shard.texts := by
  constructor
  · intro absent isText
    obtain ⟨index, stored⟩ := Array.mem_iff_getElem?.mp isText
    simp [sound.lookup_of_getElem? stored] at absent
  · intro notText
    cases found : shard.places.lookup text with
    | none => rfl
    | some place => exact absurd (Array.mem_of_getElem? ((sound.placed _ _).mp found)) notText

/-- A shard without texts is sound. -/
theorem sound_empty (number : Nat) : empty.Sound number where
  placed := by simp [empty]
  fits := Nat.zero_le _
  hashed := by simp [empty]

/-- A text that is not stored yet may be added at the next place. -/
theorem Sound.add (sound : shard.Sound number) (fresh : text ∉ shard.texts)
    (room : shard.texts.size ≤ InternedName.lastPlace.toNat)
    (hashes : Interner.shardOf text = number) :
    (shard.add text (.ofNat shard.texts.size)).Sound number where
  placed other place := by
    simp only [InternShard.add, List.lookup_cons, Array.getElem?_push]
    by_cases same : other = text
    · -- The new text is at the next place, and nowhere else because it was not stored.
      subst same
      have elsewhere : shard.texts[place.toNat]? ≠ some other :=
        fun stored => fresh (Array.mem_of_getElem? stored)
      have placeIff : UInt32.ofNat shard.texts.size = place ↔ place.toNat = shard.texts.size := by
        rw [← UInt32.toNat_inj, InternedName.toNat_ofNat_place room, eq_comm]
      simp [placeIff, elsewhere]
    · have differs : (other == text) = false := beq_false_of_ne same
      by_cases next : place.toNat = shard.texts.size
      · have absent : shard.texts[place.toNat]? ≠ some other := by simp [next]
        simpa [differs, Ne.symm same, next] using (sound.placed other place).not.mpr absent
      · simpa [differs, next] using sound.placed other place
  fits := by
    rw [InternShard.add, Array.size_push]
    exact Nat.succ_le_succ room
  hashed other inside := by
    rcases Array.mem_push.mp inside with old | rfl
    · exact sound.hashed other old
    · exact hashes

/-- The shard of the empty text is sound. -/
theorem sound_withEmpty : withEmpty.Sound 0 := by
  have fresh : "" ∉ empty.texts := by simp [empty]
  exact (sound_empty 0).add fresh (Nat.zero_le _) (by decide +kernel)

end InternShard

namespace Interner

variable {interner before middle after : Interner} {name other : InternedName} {text : String}
  {number : Nat}
/-- The texts of an interner, shard by shard. -/
def texts (interner : Interner) : List String := interner.shards.toList.flatMap (·.texts.toList)

/-- An interner whose shards are sound and that counts its texts. -/
structure Sound (interner : Interner) : Prop where
  /-- There is a shard for each number. -/
  shards : interner.shards.size = InternedName.shardCount
  /-- Each shard is sound. -/
  sound : ∀ number, (interner.shard number).Sound number
  /-- The texts are counted. -/
  counted : interner.size = interner.texts.length

/-- A name of a text: it says the shard that the text hashes to and the place where the text is. -/
structure Names (interner : Interner) (name : InternedName) (text : String) : Prop where
  /-- The shard is that of the text. -/
  shard : name.shard = shardOf text
  /-- The text is at the place. -/
  place : (interner.shard (shardOf text)).texts[name.place]? = some text

/-- Each name of an interner names the same text in another. -/
def Keeps (before after : Interner) : Prop :=
    ∀ name text, before.Names name text → after.Names name text

/-- No shard is the shard of more different texts than it has places. -/
def Fits (texts : List String) : Prop :=
  ∀ number, texts.dedup.countP (shardOf · = number) ≤ InternedName.lastPlace.toNat + 1

/-- Texts that are few enough fit. -/
theorem fits_of_length {texts : List String}
    (few : texts.length ≤ InternedName.lastPlace.toNat + 1) : Fits texts :=
  fun _ =>
    Nat.le_trans List.countP_le_length (Nat.le_trans (List.dedup_sublist texts).length_le few)

/-- A name says its text. -/
theorem Names.lookup (isName : interner.Names name text) : interner.lookup name = text := by
  rw [Interner.lookup, isName.shard, isName.place]
  rfl

/-- In a sound interner two names are equal exactly when their texts are. -/
theorem Sound.names_eq_iff (sound : interner.Sound) {same : String}
    (isName : interner.Names name text)
    (isOther : interner.Names other same) : name = other ↔ text = same := by
  constructor
  · rintro rfl
    exact isName.lookup.symm.trans isOther.lookup
  · rintro rfl
    have places := (sound.sound _).index_unique isName.place isOther.place
    exact InternedName.eq_of_parts (isName.shard.trans isOther.shard.symm) places

/-- A text is in an interner exactly when it is in its shard. -/
theorem Sound.mem_texts (sound : interner.Sound) :
    text ∈ interner.texts ↔ text ∈ (interner.shard (shardOf text)).texts := by
  have inShards : shardOf text < interner.shards.size := sound.shards ▸ shardOf_lt text
  simp only [texts, List.mem_flatMap, Array.mem_toList_iff]
  constructor
  · rintro ⟨shard, isShard, inside⟩
    obtain ⟨index, stored⟩ := Array.mem_iff_getElem?.mp isShard
    have shardEq : interner.shard index = shard := by rw [Interner.shard, stored, Option.getD_some]
    have hashes : shardOf text = index := (sound.sound index).hashed text (shardEq ▸ inside)
    rwa [hashes, shardEq]
  · intro inside
    refine ⟨_, Array.getElem_mem inShards, ?_⟩
    rwa [Interner.shard, Array.getElem?_eq_getElem inShards] at inside

/-- No text is in an interner twice. -/
theorem Sound.nodup (sound : interner.Sound) : interner.texts.Nodup := by
  have shardEq {index : Nat} (inside : index < interner.shards.toList.length) :
      interner.shard index = interner.shards.toList[index] := by
    simp [Interner.shard, Array.getElem?_eq_getElem (show index < interner.shards.size from inside)]
  rw [texts, List.nodup_flatMap]
  constructor
  · intro shard isShard
    obtain ⟨index, inside, rfl⟩ := List.getElem_of_mem isShard
    exact shardEq inside ▸ (sound.sound index).nodup
  · rw [List.pairwise_iff_getElem]
    intro index other inside otherInside before
    rw [← shardEq inside, ← shardEq otherInside]
    intro text first second
    have atFirst := (sound.sound index).hashed text (Array.mem_toList_iff.mp first)
    have atSecond := (sound.sound other).hashed text (Array.mem_toList_iff.mp second)
    exact Nat.ne_of_lt before (atFirst.symm.trans atSecond)

/-- A shard after a text was stored. -/
theorem Sound.shard_store (sound : interner.Sound) (small : number < InternedName.shardCount)
    (index : Nat) :
    (interner.store number text).shard index = if index = number
      then (interner.shard number).add text (.ofNat (interner.shard number).texts.size)
      else interner.shard index := by
  have inside : number < interner.shards.size := sound.shards ▸ small
  by_cases same : index = number
  · subst same
    simp [store, Interner.shard, inside]
  · simp [store, Interner.shard, same, Ne.symm same]

/-- The texts after a text was stored. -/
theorem Sound.texts_store (sound : interner.Sound) (small : number < InternedName.shardCount) :
    (interner.store number text).texts.Perm (text :: interner.texts) := by
  have inside : number < interner.shards.toList.length := by
    rw [Array.length_toList, sound.shards]
    exact small
  have stored : interner.shard number = interner.shards.toList[number] := by
    simp [Interner.shard,
      Array.getElem?_eq_getElem (show number < interner.shards.size from inside)]
  let others := interner.shards.toList.eraseIdx number
  have old : interner.texts.Perm
      ((interner.shard number).texts.toList ++ others.flatMap (·.texts.toList)) := by
    rw [stored]
    exact (List.getElem_cons_eraseIdx_perm inside).symm.flatMap_right _
  have new : (interner.store number text).texts.Perm
      (((interner.shard number).texts.toList ++ [text]) ++ others.flatMap (·.texts.toList)) := by
    rw [texts, store, Array.toList_setIfInBounds, ← Array.toList_push]
    exact (List.set_perm_cons_eraseIdx inside _).flatMap_right _
  have moved : List.Perm
      (((interner.shard number).texts.toList ++ [text]) ++ others.flatMap (·.texts.toList))
      (text :: ((interner.shard number).texts.toList ++ others.flatMap (·.texts.toList))) := by
    rw [List.append_assoc, List.singleton_append]
    exact List.perm_middle
  exact new.trans (moved.trans (old.symm.cons text))

/-- Storing a new text where there is room keeps an interner sound. -/
theorem Sound.store (sound : interner.Sound) (fresh : text ∉ interner.texts)
    (room : (interner.shard (shardOf text)).texts.size ≤ InternedName.lastPlace.toNat) :
    (interner.store (shardOf text) text).Sound where
  shards := by
    rw [Interner.store, Array.size_setIfInBounds]
    exact sound.shards
  sound index := by
    rw [sound.shard_store (shardOf_lt text)]
    split
    · next same =>
      subst same
      exact (sound.sound _).add (mt sound.mem_texts.mpr fresh) room rfl
    · exact sound.sound index
  counted := by
    rw [(sound.texts_store (shardOf_lt text)).length_eq, List.length_cons, ← sound.counted]
    rfl

/-- Storing a text moves no other. -/
theorem Sound.keeps_store
    (sound : interner.Sound) : interner.Keeps (interner.store (shardOf text) text) := by
  intro name other isName
  refine ⟨isName.shard, ?_⟩
  rw [sound.shard_store (shardOf_lt text)]
  split
  · next same =>
    obtain ⟨inside, -⟩ := Array.getElem?_eq_some_iff.mp isName.place
    rw [← same, InternShard.add, Array.getElem?_push_lt inside, ← Array.getElem?_eq_getElem inside]
    exact isName.place
  · exact isName.place

/-- The name of a text that was stored is that of the next place. -/
theorem Sound.names_store (sound : interner.Sound)
    (room : (interner.shard (shardOf text)).texts.size ≤ InternedName.lastPlace.toNat) :
    (interner.store (shardOf text) text).Names
      (.new (.ofNat (shardOf text)) (.ofNat (interner.shard (shardOf text)).texts.size)) text where
  shard := InternedName.shard_new (shardOf_lt text) room
  place := by
    rw [sound.shard_store (shardOf_lt text), if_pos rfl,
      InternedName.place_new (shardOf_lt text) room]
    exact Array.getElem?_push_size

/-- What a run of interned texts makes: a sound interner that keeps every name, has a name for each
text and no text but these and the old ones. -/
structure Interns (before : Interner) (texts : List String) (names : List InternedName)
    (after : Interner) : Prop where
  /-- The interner is sound. -/
  sound : after.Sound
  /-- The old names name what they named. -/
  keeps : before.Keeps after
  /-- Each name is that of its text. -/
  names : List.Forall₂ after.Names names texts
  /-- The texts are the old ones and those of the run. -/
  mem_texts : ∀ text, text ∈ after.texts ↔ text ∈ before.texts ∨ text ∈ texts

/-- No text is interned by no call. -/
theorem Sound.interns_nil (sound : interner.Sound) : interner.Interns [] [] interner :=
  ⟨sound, fun _ _ isName => isName, .nil, by simp⟩

/-- A run goes on where the one before ended. -/
theorem Interns.append {texts more : List String} {names newer : List InternedName}
    (first : before.Interns texts names middle) (second : middle.Interns more newer after) :
    before.Interns (texts ++ more) (names ++ newer) after where
  sound := second.sound
  keeps name text isName := second.keeps name text (first.keeps name text isName)
  names := List.rel_append (first.names.imp second.keeps) second.names
  mem_texts text := by rw [second.mem_texts, first.mem_texts, List.mem_append, or_assoc]

/-- A new text of texts that fit has room in its shard. -/
theorem Sound.room {known : List String} (sound : interner.Sound) (fits : Fits known)
    (held : interner.texts ⊆ known)
    (isKnown : text ∈ known) (fresh : text ∉ interner.texts) :
    (interner.shard (shardOf text)).texts.size ≤ InternedName.lastPlace.toNat := by
  have distinct : (text :: (interner.shard (shardOf text)).texts.toList).Nodup :=
    List.nodup_cons.mpr
      ⟨mt (sound.mem_texts.mpr ∘ Array.mem_toList_iff.mp) fresh, (sound.sound _).nodup⟩
  have among : text :: (interner.shard (shardOf text)).texts.toList
      ⊆ known.dedup.filter (shardOf · = shardOf text) := by
    intro other inside
    rw [List.mem_filter, List.mem_dedup, decide_eq_true_eq]
    rcases List.mem_cons.mp inside with rfl | old
    · exact ⟨isKnown, rfl⟩
    · have hashes := (sound.sound _).hashed other (Array.mem_toList_iff.mp old)
      exact ⟨held (sound.mem_texts.mpr (hashes ▸ Array.mem_toList_iff.mp old)), hashes⟩
  have bound := (distinct.subperm among).length_le
  rw [List.length_cons, Array.length_toList, ← List.countP_eq_length_filter] at bound
  exact Nat.le_of_succ_le_succ (Nat.le_trans bound (fits _))

/-- A call of a sound interner on a text of texts that fit does not fail. -/
theorem Sound.tryIntern {known : List String} (sound : interner.Sound) (fits : Fits known)
    (held : interner.texts ⊆ known)
    (isKnown : text ∈ known) :
    ∃ name after, tryIntern text interner = .ok (name, after) ∧
    interner.Interns [text] [name] after := by
  cases found : (interner.shard (shardOf text)).places.lookup text with
  | some place =>
    have stored := ((sound.sound _).placed _ _).mp found
    have inTexts : text ∈ interner.texts := sound.mem_texts.mpr (Array.mem_of_getElem? stored)
    obtain ⟨inside, -⟩ := Array.getElem?_eq_some_iff.mp stored
    have small := Nat.le_of_lt_succ (Nat.lt_of_lt_of_le inside (sound.sound _).fits)
    have named : interner.Names (.new (.ofNat (shardOf text)) place) text := by
      have samePlace : UInt32.ofNat place.toNat = place := UInt32.ofNat_toNat
      rw [← samePlace]
      refine ⟨InternedName.shard_new (shardOf_lt text) small, ?_⟩
      rw [InternedName.place_new (shardOf_lt text) small]
      exact stored
    refine ⟨_, interner, by simp only [Interner.tryIntern,
      found], sound, fun _ _ isName => isName, .cons named .nil, ?_⟩
    intro other
    rw [List.mem_singleton, iff_self_or]
    rintro rfl
    exact inTexts
  | none =>
    have fresh : text ∉ interner.texts :=
      mt sound.mem_texts.mp ((sound.sound _).lookup_eq_none.mp found)
    have room := sound.room fits held isKnown fresh
    refine ⟨_,
      interner.store (shardOf text) text, by simp only [Interner.tryIntern, found, if_pos room],
      sound.store fresh room, sound.keeps_store, .cons (sound.names_store room) .nil, ?_⟩
    intro other
    rw [(sound.texts_store (shardOf_lt text)).mem_iff, List.mem_cons, List.mem_singleton, or_comm]

/-- A run of calls on texts that fit does not fail, and the calls that cannot fail do the same. -/
theorem Sound.internAll {known : List String} (fits : Fits known) (texts : List String)
    (inside : texts ⊆ known)
    (sound : interner.Sound) (held : interner.texts ⊆ known) :
    ∃ names after, texts.mapM Interner.tryIntern interner = .ok (names, after) ∧
      Interner.internAll texts interner = (names, after) ∧ interner.Interns texts names after := by
  induction texts generalizing interner with
  | nil => exact ⟨[], interner, rfl, rfl, sound.interns_nil⟩
  | cons text texts ih =>
    obtain ⟨isKnown, others⟩ := List.cons_subset.mp inside
    obtain ⟨name, middle, tried, step⟩ := sound.tryIntern fits held isKnown
    have interned : intern text interner = (name, middle) := by simp only [intern, tried]
    have heldAfter : middle.texts ⊆ known := by
      intro other isText
      rcases (step.mem_texts other).mp isText with old | new
      · exact held old
      · exact List.mem_singleton.mp new ▸ isKnown
    obtain ⟨names, after, ran, all, rest⟩ := ih others step.sound heldAfter
    refine ⟨name :: names, after, ?_, ?_, step.append rest⟩
    · rw [List.mapM_cons]
      simp only [bind, StateT.bind, Except.bind, tried, ran]
      rfl
    · rw [Interner.internAll, List.mapM_cons]
      rw [Interner.internAll] at all
      simp only [bind, StateT.bind, interned, all]
      rfl

/-- An interner with the empty text only is sound. -/
theorem sound_blank : blank.Sound where
  shards := rfl
  sound number := by
    by_cases zero : number = 0
    · exact zero ▸ InternShard.sound_withEmpty
    · have noText : blank.shard number = .empty := by
        simp only [blank, Interner.shard, Array.getElem?_setIfInBounds_ne (Ne.symm zero),
          Array.getElem?_replicate]
        split <;> rfl
      exact noText ▸ InternShard.sound_empty number
  counted := rfl

/-- The texts that every interner knows. -/
def startTexts : List String := "" :: commonWords

/-- Every interner starts sound, with the empty text and the common words. -/
theorem sound_start : start.Sound ∧ ∀ text, text ∈ start.texts ↔ text ∈ startTexts := by
  have fits : Fits startTexts := fits_of_length (by decide)
  have held : blank.texts ⊆ startTexts := by decide
  obtain ⟨names, after, -, all, run⟩ :=
    sound_blank.internAll fits commonWords (List.subset_cons_self _ _) held
  have blankTexts : blank.texts = [""] := by decide
  rw [start, all]
  refine ⟨run.sound, fun text => ?_⟩
  rw [run.mem_texts, blankTexts, startTexts, ← List.mem_append, List.singleton_append]

/-- A sound interner counts the different texts among those that it has. -/
theorem Sound.size_eq {texts : List String} (sound : interner.Sound)
    (same : ∀ text, text ∈ interner.texts ↔ text ∈ texts) :
    interner.size = texts.dedup.length := by
  have perm : interner.texts.Perm texts.dedup :=
    (List.perm_ext_iff_of_nodup sound.nodup (List.nodup_dedup texts)).mpr fun text => by
    rw [same, List.mem_dedup]
  rw [sound.counted, perm.length_eq]

/-- Any run of calls on a new interner, followed by any other, on texts that fit. No call fails. Two
names of the run are equal exactly when their texts are; each name says its text after the run and
after the calls that follow; and the size is the number of different texts, the empty one and the
common words among them. -/
theorem internAll_start (texts later : List String) (fits : Fits (startTexts ++ texts ++ later)) :
    ∃ names interner newer final,
      texts.mapM tryIntern start = .ok (names, interner) ∧ internAll texts start = (names, interner)
      ∧ later.mapM tryIntern interner = .ok (newer, final) ∧
      internAll later interner = (newer, final) ∧ names.length = texts.length ∧
      (∀ entry ∈ names.zip texts, ∀ other ∈ names.zip texts, entry.1 = other.1 ↔ entry.2 = other.2)
      ∧ (∀ entry ∈ names.zip texts, interner.lookup entry.1 = entry.2 ∧
        final.lookup entry.1 = entry.2) ∧ interner.size = (startTexts ++ texts).dedup.length := by
  obtain ⟨startSound, startMem⟩ := sound_start
  have started : start.texts ⊆ startTexts ++ texts ++ later := fun text isText =>
    List.mem_append_left _ (List.mem_append_left _ ((startMem text).mp isText))
  have ranInside : texts ⊆ startTexts ++ texts ++ later := fun text isText =>
    List.mem_append_left _ (List.mem_append_right _ isText)
  obtain ⟨names, interner, ran, all, run⟩ := startSound.internAll fits texts ranInside started
  have afterRun (text : String) : text ∈ interner.texts ↔ text ∈ startTexts ++ texts := by
    rw [run.mem_texts, startMem, List.mem_append]
  have held : interner.texts ⊆ startTexts ++ texts ++ later := fun text isText =>
    List.mem_append_left _ ((afterRun text).mp isText)
  obtain ⟨newer, final, wentOn, allLater, next⟩ :=
    run.sound.internAll fits later (List.subset_append_right _ _) held
  have named : ∀ entry ∈ names.zip texts, interner.Names entry.1 entry.2 := fun entry isEntry =>
    (List.forall₂_iff_zip.mp run.names).2 isEntry
  refine ⟨names, interner, newer, final, ran, all, wentOn, allLater, run.names.length_eq, ?_, ?_,
    run.sound.size_eq afterRun⟩
  · intro entry isEntry other isOther
    exact run.sound.names_eq_iff (named entry isEntry) (named other isOther)
  · intro entry isEntry
    exact ⟨(named entry isEntry).lookup, (next.keeps _ _ (named entry isEntry)).lookup⟩

/-- A run with a text that comes again, and a later one. -/
theorem internAll_start_items : Fits (startTexts ++ ["items", "index", "items"] ++ ["x"])
    ∧ ∃ names interner newer final, ["items", "index", "items"].mapM tryIntern start =
    .ok (names, interner) ∧ ["x"].mapM tryIntern interner = .ok (newer, final) ∧ names.length = 3 ∧
      interner.size = 34 := by
  have fits : Fits (startTexts ++ ["items", "index", "items"] ++ ["x"]) :=
    fits_of_length (by decide)
  obtain ⟨names, interner, newer, final, ran, -, wentOn, -, length, -, -, size⟩ :=
    internAll_start _ _ fits
  exact ⟨fits, names, interner, newer, final, ran, wentOn, length, size⟩

end Interner
end Refactory
