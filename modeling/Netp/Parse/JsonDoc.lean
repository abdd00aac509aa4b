import Netp.Parse.JsonParse

/-! # What a JSON text says, as a `Value` and as a tree

`Doc` is a JSON text read, with the fields of an object in order. `Doc.value` is the `Value` that
`JSON_parse` makes of it and `Doc.node` the node that `JsonParser` builds. They are of the same shape
only where the text has no literal but `null` and no field (`sameShape_iff`): the other literals are
`JsonNull` nodes, and the text of a field has the quotes.
-/

namespace Netp.Parse
open Netp.Lib
set_option autoImplicit false

/-- A name without its quotes: a quote in it has a backslash before it. -/
structure FieldName where
  raw : Text
  unquoted : raw.head? ≠ some 34

/-- A value read: the strings with their text and what it stands for, the numbers trimmed. -/
inductive Doc
  | object (fields : List (FieldName × Doc))
  | array (elements : List Doc)
  | string (raw text : Text)
  | number (text : Text)
  | literal (l : JsonParse.Literal)

namespace Doc
open JsonParse

/-- The map after the fields in order. -/
def mapOf (fields : List (Text × Value)) : List (Text × Value) :=
  fields.foldl (fun o f => mapInsert f.1 f.2 o) []

mutual

def value : Doc → Value
  | .object fields => .object (mapOf (fieldValues fields))
  | .array elements => .array (values elements)
  | .string raw _ => .string raw
  | .number text => .number text
  | .literal l => l.value
termination_by structural d => d

def values : List Doc → List Value
  | [] => []
  | d :: ds => d.value :: values ds
termination_by structural ds => ds

def fieldValues : List (FieldName × Doc) → List (Text × Value)
  | [] => []
  | (k, d) :: fs => (k.raw, d.value) :: fieldValues fs
termination_by structural fs => fs

end

/-- The text of a field. -/
def quoted (k : FieldName) : Text := 34 :: k.raw ++ [34]

mutual

def node : Doc → Node
  | .object fields => .mk .jsonObject [] (fieldNodes fields)
  | .array elements => .mk .jsonArray [] (nodes elements)
  | .string _ text => .mk .jsonString text []
  | .number text => .mk .jsonNumber text []
  | .literal _ => .mk .jsonNull [] []
termination_by structural d => d

def nodes : List Doc → List Node
  | [] => []
  | d :: ds => d.node :: nodes ds
termination_by structural ds => ds

def fieldNodes : List (FieldName × Doc) → List Node
  | [] => []
  | (k, d) :: fs => .mk .jsonField (quoted k) [d.node] :: fieldNodes fs
termination_by structural fs => fs

end

mutual

/-- A node is the value over again: the kinds, the names and the numbers. -/
def sameShape : Value → Node → Bool
  | .object o, n => n.type = .jsonObject && sameFields o n.children
  | .array a, n => n.type = .jsonArray && sameElements a n.children
  | .string _, n => n.type = .jsonString
  | .number s, n => n.type = .jsonNumber && n.text = s
  | .null, n => n.type = .jsonNull
  | .false, n => n.type = .jsonFalse
  | .true, n => n.type = .jsonTrue
  | .nan, n => n.type = .jsonNaN
  | .infinity, n => n.type = .jsonInfinity
termination_by structural v => v

def sameElements : List Value → List Node → Bool
  | [], [] => true
  | v :: a, n :: ns => sameShape v n && sameElements a ns
  | _, _ => false
termination_by structural a => a

def sameFields : List (Text × Value) → List Node → Bool
  | [], [] => true
  | (k, v) :: o, f :: fs =>
      f.type = .jsonField && f.text = k &&
        (match f.children with
        | [n] => sameShape v n
        | _ => false) && sameFields o fs
  | _, _ => false
termination_by structural o => o

end

mutual

/-- No literal but `null`, and no field. -/
def plain : Doc → Bool
  | .object fields => fields.isEmpty
  | .array elements => allPlain elements
  | .literal l => l = .null
  | _ => true
termination_by structural d => d

def allPlain : List Doc → Bool
  | [] => true
  | d :: ds => d.plain && allPlain ds
termination_by structural ds => ds

end

theorem values_append (ds : List Doc) (d : Doc) : values (ds ++ [d]) = values ds ++ [d.value] := by
  induction ds with
  | nil => rfl
  | cons e ds ih => simp [values, ih]

theorem nodes_append (ds : List Doc) (d : Doc) : nodes (ds ++ [d]) = nodes ds ++ [d.node] := by
  induction ds with
  | nil => rfl
  | cons e ds ih => simp [nodes, ih]

theorem fieldNodes_append (fs : List (FieldName × Doc)) (k : FieldName) (d : Doc) :
    fieldNodes (fs ++ [(k, d)]) = fieldNodes fs ++ [.mk .jsonField (quoted k) [d.node]] := by
  induction fs with
  | nil => rfl
  | cons f fs ih => simp [fieldNodes, ih]

theorem mapOf_append (fs : List (FieldName × Doc)) (k : FieldName) (d : Doc) :
    mapOf (fieldValues (fs ++ [(k, d)])) = mapInsert k.raw d.value (mapOf (fieldValues fs)) := by
  have happend : fieldValues (fs ++ [(k, d)]) = fieldValues fs ++ [(k.raw, d.value)] := by
    induction fs with
    | nil => rfl
    | cons f fs ih => simp [fieldValues, ih]
  rw [happend, mapOf, List.foldl_append]
  rfl

theorem mapInsert_keys {k : Text} {v : Value} {o : List (Text × Value)} {key : Text}
    (h : key ∈ (mapInsert k v o).map Prod.fst) : key = k ∨ key ∈ o.map Prod.fst := by
  induction o with
  | nil => exact .inl (List.mem_singleton.mp h)
  | cons f o ih =>
      obtain ⟨k', v'⟩ := f
      simp only [mapInsert] at h
      split_ifs at h with hk hlt
      · simpa [hk] using h
      · simpa using h
      · rcases List.mem_cons.mp h with h | h
        · exact .inr (by simp [h])
        · exact (ih h).imp id fun h => List.mem_cons_of_mem _ h

theorem mapOf_keys {fs : List (Text × Value)} {key : Text} (h : key ∈ (mapOf fs).map Prod.fst) :
    key ∈ fs.map Prod.fst := by
  unfold mapOf at h
  induction fs using List.reverseRecOn with
  | nil => exact h
  | append_singleton fs f ih =>
      rw [List.foldl_append] at h
      rw [List.map_append, List.mem_append]
      rcases mapInsert_keys h with h | h
      · exact .inr (by simp [h])
      · exact .inl (ih h)

theorem fieldValues_keys {fs : List (FieldName × Doc)} {key : Text}
    (h : key ∈ (fieldValues fs).map Prod.fst) : key.head? ≠ some 34 := by
  induction fs with
  | nil => simp [fieldValues] at h
  | cons f fs ih =>
      obtain ⟨k, d⟩ := f
      rcases List.mem_cons.mp h with rfl | h
      · exact k.unquoted
      · exact ih h

/-- A name in the map is not the text of a field, with the quotes. -/
theorem sameFields_iff (fs : List (FieldName × Doc)) :
    sameFields (mapOf (fieldValues fs)) (fieldNodes fs) = true ↔ fs = [] := by
  cases fs with
  | nil => simp [fieldValues, fieldNodes, mapOf, sameFields]
  | cons f fs =>
      obtain ⟨k, d⟩ := f
      simp only [fieldNodes, reduceCtorEq, iff_false]
      intro h
      cases hmap : mapOf (fieldValues ((k, d) :: fs)) with
      | nil => simp [hmap, sameFields] at h
      | cons g o =>
          obtain ⟨key, v⟩ := g
          have hkey : key.head? ≠ some 34 := fieldValues_keys (mapOf_keys (by rw [hmap]; simp))
          rw [hmap, sameFields] at h
          simp only [Node.text, Bool.and_eq_true, decide_eq_true_eq] at h
          apply hkey
          rw [← of_decide_eq_true h.1.1.2]
          rfl

mutual

/-- The value and the node of a text are of the same shape exactly where the text is plain. -/
theorem sameShape_iff : ∀ d : Doc, sameShape d.value d.node = true ↔ d.plain = true
  | .object fields => by
      simp [value, node, sameShape, plain, Node.type, Node.children, sameFields_iff]
  | .array elements => by
      simp only [value, node, sameShape, plain, Node.type, Node.children, decide_true, Bool.true_and]
      exact sameElements_iff elements
  | .string raw text => by simp [value, node, sameShape, plain, Node.type]
  | .number text => by simp [value, node, sameShape, plain, Node.type, Node.text]
  | .literal l => by
      cases l <;> simp [value, node, sameShape, plain, Node.type, Literal.value]
termination_by structural d => d

theorem sameElements_iff : ∀ ds : List Doc,
    sameElements (values ds) (nodes ds) = true ↔ allPlain ds = true
  | [] => by simp [values, nodes, sameElements, allPlain]
  | d :: ds => by
      simp only [values, nodes, sameElements, allPlain, Bool.and_eq_true]
      exact and_congr (sameShape_iff d) (sameElements_iff ds)
termination_by structural ds => ds

end

end Doc

end Netp.Parse
