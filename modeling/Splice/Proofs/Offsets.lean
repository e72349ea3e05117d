import Splice.Proofs.Streams
import Splice.Proofs.Text.Subparts

/-!
# Offsets of characters

Decoding keeps count of the octets. The characters of a source begin at ascending offsets, the first
one at zero, and the octets from one offset to the next are the encoding of the character or a
maximal subpart that it replaces (`AreLocated`). It comes to the same to read a run of encoded
characters and the malformed part after it at a time (`indexFrom_chunks`). In an encoded text the
offset of a character is the size of the text before it (`decoding_keeps_offsets`).
-/

namespace Splice

open Text

/-- Octets, before some others, that stand for a character: its encoding, or a maximal subpart,
which the replacement character stands for. -/
def StandFor (c : Char) (own rest : List UInt8) : Prop :=
  own = String.utf8EncodeChar c ∨
    c = '\uFFFD' ∧ IsMaximalSubpart own rest ∧ 1 ≤ own.length ∧ own.length ≤ 3

/-- The offset that characters begin at: of the first one, or of the end if there are none. -/
def firstOffset (stop : Nat) (xs : List Located) : Nat := (xs.head?.map (·.place.offset)).getD stop

/-- Characters with their locations are those of some octets: the first one begins with the octets,
and each has the octets up to the next one, or up to the end. -/
structure AreLocated (octets : List UInt8) (xs : List Located) : Prop where
  first : ∀ x ∈ xs.head?, x.place.offset = 0
  ascending : Ascending xs
  octets : ∀ before x after, xs = before ++ x :: after → ∃ earlier own later,
    octets = earlier ++ (own ++ later) ∧ earlier.length = x.place.offset ∧
      (earlier ++ own).length = firstOffset octets.length after ∧ StandFor x.char own later

/-! ## Octets of a character -/

theorem Text.Segments.eq_flatMap {octets : List UInt8} {ps : List Piece} (h : Segments octets ps) :
    octets = ps.flatMap Piece.octets := by
  rw [← segments_iff.mp h, flatMap_octets_decode]

theorem standFor_of_segments {octets : List UInt8} {qs rs : List Piece} {p : Piece}
    (h : Segments octets (qs ++ p :: rs)) : StandFor p.char p.octets (rs.flatMap Piece.octets) := by
  induction qs generalizing octets with
  | nil =>
    have hpart : p.IsPart :=
      isPart_of_mem_decode (by rw [segments_iff.mp h]; exact List.mem_cons_self)
    cases h with
    | encoded => exact .inl rfl
    | malformed hmaximal hrest =>
      rw [← hrest.eq_flatMap]
      exact .inr ⟨rfl, hmaximal, hpart⟩
  | cons q qs ih =>
    cases h with
    | encoded hrest | malformed _ hrest => exact ih hrest

theorem firstOffset_locate (l : Location) (ps : List Piece) :
    firstOffset (l.offset + (ps.flatMap Piece.octets).length) (locate l ps) = l.offset := by
  cases ps <;> rfl

theorem areLocated_ofOctets (octets : List UInt8) :
    AreLocated octets (Source.ofOctets octets).located where
  first x hx := by
    rw [place_of_mem_head?_locate hx]
    rfl
  ascending := by
    have hpairwise := Source.pairwise_terminated octets
    exact (List.pairwise_append.mp hpairwise).1
  octets before x after h := by
    obtain ⟨qs, p, rs, hpieces, rfl, rfl, rfl⟩ := exists_pieces_of_locate_eq h
    have hsegments : Segments octets (qs ++ p :: rs) := segments_iff.mpr hpieces
    have hoctets : octets =
        qs.flatMap Piece.octets ++ (p.octets ++ rs.flatMap Piece.octets) := by
      simpa using hsegments.eq_flatMap
    have hoffset : (Location.origin.read qs).offset = (qs.flatMap Piece.octets).length :=
      (Location.offset_read _ _).trans (Nat.zero_add _)
    have hnext : ((Location.origin.read qs).after p).offset =
        (qs.flatMap Piece.octets ++ p.octets).length := by
      rw [Location.offset_after, hoffset, List.length_append, Piece.length_octets]
    have hlength : octets.length =
        ((Location.origin.read qs).after p).offset + (rs.flatMap Piece.octets).length := by
      rw [hnext, ← List.length_append, List.append_assoc, ← hoctets]
    refine ⟨_, _, _, hoctets, hoffset.symm, ?_, standFor_of_segments hsegments⟩
    rw [hlength, firstOffset_locate, hnext]

/-! ## Chunks -/

/-- Encoded characters and the malformed part after them, which is empty at the end. -/
structure Chunk where
  chars : List Char
  part : List UInt8

/-- What stands for the malformed part of a chunk. -/
def Chunk.replacement (k : Chunk) : List Char := if k.part = [] then [] else ['\uFFFD']

/-- An encoded character before some chunks. -/
def Chunk.put (c : Char) : List Chunk → List Chunk
  | [] => [⟨[c], []⟩]
  | k :: ks => ⟨c :: k.chars, k.part⟩ :: ks

/-- The chunks that some pieces make up. -/
def chunksOf : List Piece → List Chunk
  | [] => []
  | .encoded c :: ps => Chunk.put c (chunksOf ps)
  | .malformed part :: ps => ⟨[], part⟩ :: chunksOf ps

def chunks (octets : List UInt8) : List Chunk := chunksOf (decode octets)

def textOf (ks : List Chunk) : List Char := ks.flatMap fun k => k.chars ++ k.replacement

def offsetsFrom (offset : Nat) : List Char → List (Nat × Char)
  | [] => []
  | c :: cs => (offset, c) :: offsetsFrom (offset + c.utf8Size) cs

/-- The characters of some chunks with their offsets, which are counted from chunk to chunk. -/
def indexFrom (offset : Nat) : List Chunk → List (Nat × Char)
  | [] => []
  | k :: ks =>
    let next := offset + utf8Length k.chars
    offsetsFrom offset k.chars ++ k.replacement.map (next, ·) ++ indexFrom (next + k.part.length) ks

theorem map_snd_offsetsFrom (offset : Nat) (cs : List Char) :
    (offsetsFrom offset cs).map Prod.snd = cs := by
  induction cs generalizing offset with
  | nil => rfl
  | cons c cs ih => rw [offsetsFrom, List.map_cons, ih]

theorem map_snd_indexFrom (offset : Nat) (ks : List Chunk) :
    (indexFrom offset ks).map Prod.snd = textOf ks := by
  induction ks generalizing offset with
  | nil => rfl
  | cons k ks ih =>
    rw [indexFrom, List.map_append, List.map_append, map_snd_offsetsFrom, ih, List.map_map]
    exact congrArg (k.chars ++ · ++ textOf ks) (List.map_id k.replacement)

theorem indexFrom_put (offset : Nat) (c : Char) (ks : List Chunk) :
    indexFrom offset (Chunk.put c ks) = (offset, c) :: indexFrom (offset + c.utf8Size) ks := by
  cases ks with
  | nil => rfl
  | cons k ks =>
    rw [Chunk.put, indexFrom, indexFrom]
    simp only [offsetsFrom, utf8Length, Nat.add_assoc, List.cons_append]
    rfl

/-- Offsets counted from chunk to chunk are those counted from piece to piece. -/
theorem indexFrom_chunksOf {ps : List Piece} (h : ∀ p ∈ ps, p.octets ≠ []) (l : Location) :
    indexFrom l.offset (chunksOf ps) = (locate l ps).map fun x => (x.place.offset, x.char) := by
  induction ps generalizing l with
  | nil => rfl
  | cons p ps ih =>
    obtain ⟨hp, hps⟩ := List.forall_mem_cons.mp h
    have hrest := ih hps (l.after p)
    rw [Location.offset_after] at hrest
    cases p with
    | encoded c =>
      rw [chunksOf, indexFrom_put, locate, List.map_cons]
      exact congrArg _ hrest
    | malformed part =>
      have hreplacement : Chunk.replacement ⟨[], part⟩ = ['\uFFFD'] := if_neg hp
      rw [chunksOf, indexFrom, hreplacement, locate, List.map_cons]
      exact congrArg _ hrest

theorem indexFrom_chunks (octets : List UInt8) : indexFrom 0 (chunks octets) =
    (Source.ofOctets octets).located.map fun x => (x.place.offset, x.char) := by
  refine indexFrom_chunksOf (fun p hp hnil => ?_) .origin
  have hsize := (isPart_of_mem_decode hp).size_pos
  rw [← p.length_octets, hnil] at hsize
  exact Nat.lt_irrefl _ hsize

theorem textOf_chunks (octets : List UInt8) :
    textOf (chunks octets) = (Source.ofOctets octets).text := by
  rw [← map_snd_indexFrom 0, indexFrom_chunks, List.map_map, ← Source.map_char_located]
  rfl

/-! ## Encoded texts -/

theorem toList_toUTF8 (text : String) : text.toUTF8.data.toList = encode text.toList := by
  rw [String.toUTF8_eq_toByteArray, ← String.utf8Encode_toList, List.utf8Encode,
    List.data_toByteArray]
  rfl

theorem utf8ByteSize_ofList (cs : List Char) : (String.ofList cs).utf8ByteSize = utf8Length cs := by
  have hencode : (String.ofList cs).toByteArray = (encode cs).toByteArray :=
    String.toByteArray_ofList
  rw [String.utf8ByteSize, hencode, List.size_toByteArray, length_encode]

/-- The characters of an encoded text begin where the text before them ends. -/
theorem offset_located_ofText {cs : List Char} {before after : List Located} {x : Located}
    (h : (Source.ofText cs).located = before ++ x :: after) :
    x.place.offset = utf8Length (before.map Located.char) := by
  obtain ⟨qs, p, rs, hpieces, rfl, rfl, -⟩ := exists_pieces_of_locate_eq h
  obtain ⟨ds, es, -, rfl, -⟩ := List.map_eq_append_iff.mp hpieces
  rw [map_char_locate_encoded]
  exact (Location.offset_read_encoded _ _).trans (Nat.zero_add _)

/-- **Offsets.** Octets can be cut into encoded characters and maximal subparts in one way, which
gives the text of their source; its characters are located in the octets. Read by chunks, the octets
give the same text, and the same characters at the same offsets. The octets of a text give the text,
and the offset of each of its characters is the size of the text before it. -/
theorem decoding_keeps_offsets (octets : List UInt8) (text : String) :
    (∀ ps, Segments octets ps ↔ ps = (Source.ofOctets octets).pieces) ∧
    (indexFrom 0 (chunks octets) =
        (Source.ofOctets octets).located.map fun x => (x.place.offset, x.char)) ∧
    textOf (chunks octets) = (Source.ofOctets octets).text ∧
    (Source.ofOctets octets).located.map Located.char = (Source.ofOctets octets).text ∧
    AreLocated octets (Source.ofOctets octets).located ∧
    (Source.ofOctets text.toUTF8.data.toList).text = text.toList ∧
    ∀ before x after,
      (Source.ofOctets text.toUTF8.data.toList).located = before ++ x :: after →
        x.place.offset = (String.ofList (before.map Located.char)).utf8ByteSize := by
  refine ⟨fun ps => segments_iff.trans eq_comm, indexFrom_chunks octets, textOf_chunks octets,
    Source.map_char_located _, areLocated_ofOctets octets, ?_, ?_⟩
  · rw [toList_toUTF8, Source.ofOctets_encode, Source.text_ofText]
  · intro before x after h
    rw [toList_toUTF8, Source.ofOctets_encode] at h
    rw [offset_located_ofText h, utf8ByteSize_ofList]

/-- A letter, a character that the next one breaks off, that one, and an encoded one. -/
def brokenOffOctets : List UInt8 := [0x61, 0xE2, 0x82, 0x22, 0xC3, 0xA9]

/-- The two octets of the character that is broken off are one maximal subpart. -/
theorem decoding_keeps_offsets_brokenOff :
    (Source.ofOctets brokenOffOctets).located = [⟨'a', ⟨0, 0, 0⟩⟩] ++ ⟨'\uFFFD', ⟨1, 0, 1⟩⟩ ::
        [⟨'"', ⟨3, 0, 2⟩⟩, ⟨'\u00E9', ⟨4, 0, 3⟩⟩] ∧
      (∃ earlier own later, brokenOffOctets = earlier ++ (own ++ later) ∧ earlier.length = 1 ∧
        (earlier ++ own).length = 3 ∧ StandFor '\uFFFD' own later) ∧
      (Source.ofOctets "\u00E9a".toUTF8.data.toList).located =
        [⟨'\u00E9', ⟨0, 0, 0⟩⟩] ++ ⟨'a', ⟨2, 0, 1⟩⟩ :: [] ∧
      2 = (String.ofList ['\u00E9']).utf8ByteSize := by
  obtain ⟨-, -, -, -, hlocated, -, htext⟩ := decoding_keeps_offsets brokenOffOctets "\u00E9a"
  have hbrokenOff : (Source.ofOctets brokenOffOctets).located =
      [⟨'a', ⟨0, 0, 0⟩⟩] ++ ⟨'\uFFFD', ⟨1, 0, 1⟩⟩ ::
        [⟨'"', ⟨3, 0, 2⟩⟩, ⟨'\u00E9', ⟨4, 0, 3⟩⟩] := rfl
  have hencoded : (Source.ofOctets "\u00E9a".toUTF8.data.toList).located =
      [⟨'\u00E9', ⟨0, 0, 0⟩⟩] ++ ⟨'a', ⟨2, 0, 1⟩⟩ :: [] := by
    have htoList : "\u00E9a".toList = ['\u00E9', 'a'] := String.toList_ofList
    rw [toList_toUTF8, htoList, Source.ofOctets_encode]
    rfl
  exact ⟨hbrokenOff, hlocated.octets _ _ _ hbrokenOff, hencoded, htext _ _ _ hencoded⟩

end Splice
