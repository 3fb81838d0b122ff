import Praxis.DigestJson
import Praxis.Proofs.Rebuild

/-!
# A digest survives its JSON

Written and read back a digest is the same (`from_json_to_json`): the object of the hard keys lists
them in their order, so that nothing is overwritten when they are put into a map again.
-/

namespace Praxis

/-! ## Objects -/

namespace Json

/-- A field whose key is greater than all others goes to the end. -/
theorem setField_of_gt {key : Str} {value : Json} : ∀ {fields : List (Str × Json)},
    (∀ f ∈ fields, compare f.1 key = .lt) → setField key value fields = fields ++ [(key, value)]
  | [], _ => rfl
  | (k, v) :: fields, h => by
    have hgt : compare key k = .gt :=
      Std.OrientedCmp.gt_of_lt (h (k, v) List.mem_cons_self)
    unfold setField
    rw [hgt]
    exact congrArg _ (setField_of_gt fun f hf => h f (List.mem_cons_of_mem _ hf))

/-- Fields in the order of their keys are the object they make. -/
theorem foldl_setField {fields : List (Str × Json)} :
    ∀ done : List (Str × Json), (done ++ fields).Pairwise (fun f g => compare f.1 g.1 = .lt) →
      fields.foldl (fun acc f => setField f.1 f.2 acc) done = done ++ fields := by
  induction fields with
  | nil => exact fun _ _ => (List.append_nil _).symm
  | cons f fields ih =>
    intro done h
    have hlt : ∀ g ∈ done, compare g.1 f.1 = .lt := fun g hg =>
      (List.pairwise_append.1 h).2.2 g hg f List.mem_cons_self
    rw [List.foldl_cons, setField_of_gt hlt, ih _ (by rwa [List.append_assoc]), List.append_assoc]
    rfl

theorem ofFields_of_sorted {fields : List (Str × Json)}
    (h : fields.Pairwise fun f g => compare f.1 g.1 = .lt) : ofFields fields = .object fields :=
  congrArg object (foldl_setField [] h)

theorem getDoubles_floats (qs : List ℚ) :
    (Json.array (qs.map number_float)).getDoubles = .ok qs := by
  show (qs.map number_float).mapM getDouble = .ok qs
  induction qs with
  | nil => rfl
  | cons q qs ih =>
    rw [List.map_cons, List.mapM_cons, ih]
    rfl

end Json

namespace WholeDigest

theorem readKeys_strings : ∀ (entries : List (Str × Str)) (keys : HardKeys),
    readKeys keys (entries.map fun e => (e.1, .string e.2))
      = .ok (entries.foldl (fun m e => m.insert e.1 e.2) keys)
  | [], _ => rfl
  | e :: entries, keys => readKeys_strings entries (keys.insert e.1 e.2)

theorem toList_update_empty (keys : HardKeys) :
    (HardKeys.update ∅ keys).toList = keys.toList := by
  refine Std.TreeMap.Equiv.toList_eq (Std.TreeMap.Equiv.of_forall_constGet?_eq fun key => ?_)
  rw [HardKeys.getElem?_update]
  simp

theorem to_json_eq (digest : WholeDigest) :
    digest.to_json = .object
      [(lit "hard_fingerprint", .string digest.hard_fingerprint),
        (lit "hard_keys", .object (digest.hard_keys.toList.map fun e => (e.1, .string e.2))),
        (lit "soft", .object
          [(lit "confidence", .number_float digest.soft.confidence),
            (lit "embedding", .array (digest.soft.embedding.map .number_float))])] := by
  have hkeys : (digest.hard_keys.toList.map fun e => (e.1, Json.string e.2)).Pairwise
      fun f g => compare f.1 g.1 = .lt :=
    List.pairwise_map.2 Std.TreeMap.ordered_keys_toList
  have hinner : compare (lit "confidence") (lit "embedding") = .lt := by decide
  have hfirst : compare (lit "hard_fingerprint") (lit "hard_keys") = .lt := by decide
  have hsecond : compare (lit "hard_fingerprint") (lit "soft") = .lt := by decide
  have hthird : compare (lit "hard_keys") (lit "soft") = .lt := by decide
  have hsoft : ∀ a b : Json, Json.ofFields [(lit "confidence", a), (lit "embedding", b)]
      = .object [(lit "confidence", a), (lit "embedding", b)] := fun a b =>
    Json.ofFields_of_sorted (List.pairwise_pair.2 hinner)
  unfold to_json
  rw [Json.ofFields_of_sorted hkeys, hsoft, Json.ofFields_of_sorted]
  refine .cons (fun f hf => ?_) (List.pairwise_pair.2 hthird)
  obtain rfl | rfl := List.mem_pair.1 hf
  · exact hfirst
  · exact hsecond

theorem from_json_to_json (digest : WholeDigest) :
    ∃ digest', from_json digest.to_json = .ok digest'
      ∧ digest'.hard_fingerprint = digest.hard_fingerprint
      ∧ digest'.hard_keys.toList = digest.hard_keys.toList ∧ digest'.soft = digest.soft := by
  have hread : from_json digest.to_json = .ok
      { hard_keys := HardKeys.update ∅ digest.hard_keys
        hard_fingerprint := digest.hard_fingerprint
        soft := digest.soft } := by
    rw [to_json_eq]
    show (do
      let hard_keys ← readKeys ∅
        (digest.hard_keys.toList.map fun e : Str × Str => (e.1, Json.string e.2))
      let embedding ← (Json.array (digest.soft.embedding.map .number_float)).getDoubles
      pure { hard_keys, hard_fingerprint := digest.hard_fingerprint,
             soft := { embedding, confidence := digest.soft.confidence } } :
      Except Exn WholeDigest) = _
    rw [readKeys_strings, Json.getDoubles_floats]
    rfl
  exact ⟨_, hread, rfl, toList_update_empty digest.hard_keys, rfl⟩

end WholeDigest

end Praxis
