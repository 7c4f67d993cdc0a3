import Mathlib
import NemoRL.Foundations.Chunks
import NemoRL.Utils.Dtype

namespace NemoRL.Utils.PackedTensor

open Foundations.Chunks

variable {δ : Type} [ElementType δ] {β : Type*}

structure Tensor (δ : Type) [ElementType δ] where
  shape : List ℕ
  dtype : δ
  bytes : List UInt8
  length_bytes : bytes.length = shape.prod * ElementType.itemsize dtype

structure Producer where
  bufferIdx : ℕ
  packingTensorList : ℕ → List (List UInt8)
  packingTensorSizes : ℕ → ℕ
  packedTensors : ℕ → List UInt8

def Producer.init : Producer := ⟨0, fun _ ↦ [], fun _ ↦ 0, fun _ ↦ []⟩

def Producer.next (numBuffers : ℕ+) (s : Producer) : Producer :=
  let idx := (s.bufferIdx + 1) % numBuffers
  { s with
    bufferIdx := idx
    packingTensorList := Function.update s.packingTensorList idx []
    packingTensorSizes := Function.update s.packingTensorSizes idx 0 }

def Producer.pack (targetPackedTensorSize : ℤ) (postIterFunc : β → Tensor δ) :
    List β → Producer → Producer × List β × Bool
  | [], s => (s, [], true)
  | item :: iterator, s =>
    let tensor := (postIterFunc item).bytes
    let size := s.packingTensorSizes s.bufferIdx + tensor.length
    let s := { s with
      packingTensorList := Function.update s.packingTensorList s.bufferIdx
        (s.packingTensorList s.bufferIdx ++ [tensor])
      packingTensorSizes := Function.update s.packingTensorSizes s.bufferIdx size }
    if (size : ℤ) > targetPackedTensorSize then (s, iterator, false)
    else s.pack targetPackedTensorSize postIterFunc iterator

def Producer.cat (s : Producer) : Producer :=
  { s with packedTensors := Function.update s.packedTensors s.bufferIdx
            (s.packingTensorList s.bufferIdx).flatten }

theorem Producer.pack_spec (target : ℤ) (postIterFunc : β → Tensor δ) (iterator : List β)
    (s : Producer) :
    (s.pack target postIterFunc iterator).2 =
        (fill (fun item ↦ (postIterFunc item).bytes.length) target
          (s.packingTensorSizes s.bufferIdx) iterator).2 ∧
      (s.pack target postIterFunc iterator).1.bufferIdx = s.bufferIdx ∧
      (s.pack target postIterFunc iterator).1.packingTensorList s.bufferIdx =
        s.packingTensorList s.bufferIdx ++
          (fill (fun item ↦ (postIterFunc item).bytes.length) target
            (s.packingTensorSizes s.bufferIdx) iterator).1.map
              fun item ↦ (postIterFunc item).bytes := by
  induction iterator generalizing s with
  | nil => exact ⟨rfl, rfl, (List.append_nil _).symm⟩
  | cons item iterator ih =>
    rw [Producer.pack, fill]
    split_ifs with hover
    · exact ⟨rfl, rfl, by simp⟩
    · have hrec := ih { s with
        packingTensorList := Function.update s.packingTensorList s.bufferIdx
          (s.packingTensorList s.bufferIdx ++ [(postIterFunc item).bytes])
        packingTensorSizes := Function.update s.packingTensorSizes s.bufferIdx
          (s.packingTensorSizes s.bufferIdx + (postIterFunc item).bytes.length) }
      simp only [Function.update_self] at hrec
      obtain ⟨hrest, hidx, hlist⟩ := hrec
      exact ⟨hrest, hidx, by rw [hlist, List.append_assoc]; rfl⟩

theorem Producer.pack_shorter {target : ℤ} {postIterFunc : β → Tensor δ} {iterator : List β}
    {s : Producer} (h : (s.pack target postIterFunc iterator).2.2 = false) :
    (s.pack target postIterFunc iterator).2.1.length < iterator.length := by
  rw [(Producer.pack_spec target postIterFunc iterator s).1] at h ⊢
  exact length_rest_lt h

def packedBroadcastProducer (targetPackedTensorSize : ℤ) (numBuffers : ℕ+)
    (postIterFunc : β → Tensor δ) (iterator : List β) (s : Producer) : List (List UInt8) :=
  let packed := (s.next numBuffers).pack targetPackedTensorSize postIterFunc iterator
  match _ : packed.2.2 with
  | false => packed.1.cat.packedTensors packed.1.bufferIdx ::
      packedBroadcastProducer targetPackedTensorSize numBuffers postIterFunc packed.2.1 packed.1.cat
  | true =>
    if 0 < (packed.1.packingTensorList packed.1.bufferIdx).length then
      [packed.1.cat.packedTensors packed.1.bufferIdx]
    else []
termination_by iterator.length
decreasing_by exact Producer.pack_shorter ‹_›

structure TensorMeta (δ : Type) where
  name : String
  shape : List ℕ
  dtype : δ
  offset : ℕ
  tensorSize : ℕ

/-- A run of bytes in a storage of which it begins at an offset. -/
structure View where
  storageOffset : ℕ
  bytes : List UInt8

/-- A packed tensor cut into views of the given sizes; nothing where they do not add up. -/
def splitWithSizes (packed : List UInt8) (splitSizes : List ℕ) : Option (List View) :=
  if splitSizes.sum = packed.length then
    some (go 0 packed splitSizes)
  else none
where
  go (offset : ℕ) (bytes : List UInt8) : List ℕ → List View
    | [] => []
    | size :: rest => ⟨offset, bytes.take size⟩ :: go (offset + size) (bytes.drop size) rest

/-- A view of another element size needs its offset and its length aligned, and a
reshape its number of elements. -/
def restoreTensor (view : View) (shape : List ℕ) (dtype : δ) : Option (Tensor δ) :=
  let itemsize := ElementType.itemsize dtype
  let storageOffset := if view.storageOffset % itemsize ≠ 0 then 0 else view.storageOffset
  if h : storageOffset % itemsize = 0 ∧ view.bytes.length % itemsize = 0 ∧
      view.bytes.length / itemsize = shape.prod then
    some ⟨shape, dtype, view.bytes, by
      rw [← h.2.2, Nat.div_mul_cancel (Nat.dvd_of_mod_eq_zero h.2.1)]⟩
  else none

def unpackTensor (packed : List UInt8) (metaDataList : List (TensorMeta δ)) :
    Option (List (String × Tensor δ)) :=
  match splitWithSizes packed (metaDataList.map TensorMeta.tensorSize) with
  | none => none
  | some views => (metaDataList.zip views).mapM fun x ↦
      (restoreTensor x.2 x.1.shape x.1.dtype).map (x.1.name, ·)

structure Consumer (δ : Type) where
  bufferIdx : ℕ
  packingTensorMetaData : ℕ → List (TensorMeta δ)
  packingTensorSizes : ℕ → ℕ
  offsets : ℕ → ℕ
  packedTensors : ℕ → List UInt8

def Consumer.init : Consumer δ := ⟨0, fun _ ↦ [], fun _ ↦ 0, fun _ ↦ 0, fun _ ↦ []⟩

def Consumer.next (numBuffers : ℕ+) (s : Consumer δ) : Consumer δ :=
  let idx := (s.bufferIdx + 1) % numBuffers
  { s with
    bufferIdx := idx
    packingTensorMetaData := Function.update s.packingTensorMetaData idx []
    packingTensorSizes := Function.update s.packingTensorSizes idx 0
    offsets := Function.update s.offsets idx 0 }

def Consumer.pack (targetPackedTensorSize : ℤ) :
    List (String × List ℕ × δ) → Consumer δ → Consumer δ × List (String × List ℕ × δ) × Bool
  | [], s => (s, [], true)
  | (name, shape, dtype) :: iterator, s =>
    let tensorSize := shape.prod * ElementType.itemsize dtype
    let offset := s.offsets s.bufferIdx
    let size := s.packingTensorSizes s.bufferIdx + tensorSize
    let s := { s with
      packingTensorMetaData := Function.update s.packingTensorMetaData s.bufferIdx
        (s.packingTensorMetaData s.bufferIdx ++ [⟨name, shape, dtype, offset, tensorSize⟩])
      packingTensorSizes := Function.update s.packingTensorSizes s.bufferIdx size
      offsets := Function.update s.offsets s.bufferIdx (offset + tensorSize) }
    if (size : ℤ) > targetPackedTensorSize then (s, iterator, false)
    else s.pack targetPackedTensorSize iterator

def metaSize (x : String × List ℕ × δ) : ℕ := x.2.1.prod * ElementType.itemsize x.2.2

def layOut (offset : ℕ) : List (String × List ℕ × δ) → List (TensorMeta δ)
  | [] => []
  | x :: rest => ⟨x.1, x.2.1, x.2.2, offset, metaSize x⟩ :: layOut (offset + metaSize x) rest

theorem Consumer.pack_spec (target : ℤ) (iterator : List (String × List ℕ × δ)) (s : Consumer δ) :
    (s.pack target iterator).2 =
        (fill metaSize target (s.packingTensorSizes s.bufferIdx) iterator).2 ∧
      (s.pack target iterator).1.bufferIdx = s.bufferIdx ∧
      (s.pack target iterator).1.packingTensorMetaData s.bufferIdx =
        s.packingTensorMetaData s.bufferIdx ++ layOut (s.offsets s.bufferIdx)
          (fill metaSize target (s.packingTensorSizes s.bufferIdx) iterator).1 ∧
      (s.pack target iterator).1.packingTensorSizes s.bufferIdx =
        s.packingTensorSizes s.bufferIdx +
          ((fill metaSize target (s.packingTensorSizes s.bufferIdx) iterator).1.map metaSize).sum := by
  induction iterator generalizing s with
  | nil => exact ⟨rfl, rfl, (List.append_nil _).symm, rfl⟩
  | cons x iterator ih =>
    obtain ⟨name, shape, dtype⟩ := x
    have hsize : metaSize (name, shape, dtype) = shape.prod * ElementType.itemsize dtype := rfl
    rw [Consumer.pack, fill, hsize]
    split_ifs with hover
    · exact ⟨rfl, rfl, by simp [layOut, hsize], by simp [hsize]⟩
    · have hrec := ih { s with
        packingTensorMetaData := Function.update s.packingTensorMetaData s.bufferIdx
          (s.packingTensorMetaData s.bufferIdx ++ [⟨name, shape, dtype, s.offsets s.bufferIdx,
            shape.prod * ElementType.itemsize dtype⟩])
        packingTensorSizes := Function.update s.packingTensorSizes s.bufferIdx
          (s.packingTensorSizes s.bufferIdx + shape.prod * ElementType.itemsize dtype)
        offsets := Function.update s.offsets s.bufferIdx
          (s.offsets s.bufferIdx + shape.prod * ElementType.itemsize dtype) }
      simp only [Function.update_self] at hrec
      obtain ⟨hrest, hidx, hmeta, hsum⟩ := hrec
      refine ⟨hrest, hidx, ?_, ?_⟩
      · rw [hmeta, List.append_assoc]
        rfl
      · rw [hsum, Nat.add_assoc, List.map_cons, List.sum_cons, hsize]

theorem Consumer.pack_shorter {target : ℤ} {iterator : List (String × List ℕ × δ)} {s : Consumer δ}
    (h : (s.pack target iterator).2.2 = false) :
    (s.pack target iterator).2.1.length < iterator.length := by
  rw [(Consumer.pack_spec target iterator s).1] at h ⊢
  exact length_rest_lt h

/-- One call of the consumer: the bytes it asks for, and what it hands on. -/
structure Received (δ : Type) [ElementType δ] where
  size : ℕ
  unpacked : List (String × Tensor δ)

/-- A broadcast on the receiving side takes the next one of the sender. Nothing
where there is none, where the sizes differ, or where the unpacking raises. -/
def Consumer.receive (s : Consumer δ) : List (List UInt8) →
    Option (Consumer δ × Received δ × List (List UInt8))
  | [] => none
  | message :: incoming =>
    if message.length = s.packingTensorSizes s.bufferIdx then
      match unpackTensor message (s.packingTensorMetaData s.bufferIdx) with
      | none => none
      | some unpacked =>
        some ({ s with packedTensors := Function.update s.packedTensors s.bufferIdx message },
          ⟨s.packingTensorSizes s.bufferIdx, unpacked⟩, incoming)
    else none

def packedBroadcastConsumer (targetPackedTensorSize : ℤ) (numBuffers : ℕ+)
    (iterator : List (String × List ℕ × δ)) (s : Consumer δ) (incoming : List (List UInt8)) :
    Option (List (Received δ) × List (List UInt8)) :=
  let packed := (s.next numBuffers).pack targetPackedTensorSize iterator
  match _ : packed.2.2 with
  | false =>
    match packed.1.receive incoming with
    | none => none
    | some (s, received, incoming) =>
      (packedBroadcastConsumer targetPackedTensorSize numBuffers packed.2.1 s incoming).map
        fun rest ↦ (received :: rest.1, rest.2)
  | true =>
    if 0 < (packed.1.packingTensorMetaData packed.1.bufferIdx).length then
      (packed.1.receive incoming).map fun x ↦ ([x.2.1], x.2.2)
    else some ([], incoming)
termination_by iterator.length
decreasing_by exact Consumer.pack_shorter ‹_›

theorem producer_eq_chunks (target : ℤ) (numBuffers : ℕ+) (postIterFunc : β → Tensor δ)
    (iterator : List β) (s : Producer) :
    packedBroadcastProducer target numBuffers postIterFunc iterator s =
      (chunks (fun item ↦ (postIterFunc item).bytes.length) target iterator).map
        fun chunk ↦ (chunk.map fun item ↦ (postIterFunc item).bytes).flatten := by
  induction hn : iterator.length using Nat.strong_induction_on generalizing iterator s with
  | _ n ih =>
    obtain ⟨hrest, hidx, hlist⟩ :=
      Producer.pack_spec target postIterFunc iterator (s.next numBuffers)
    have hempty : (s.next numBuffers).packingTensorList (s.next numBuffers).bufferIdx = [] := by
      simp [Producer.next]
    have hzero : (s.next numBuffers).packingTensorSizes (s.next numBuffers).bufferIdx = 0 := by
      simp [Producer.next]
    rw [hempty, List.nil_append, hzero, ← hidx] at hlist
    rw [hzero] at hrest
    have hcat : ((s.next numBuffers).pack target postIterFunc iterator).1.cat.packedTensors
        ((s.next numBuffers).pack target postIterFunc iterator).1.bufferIdx =
        ((fill (fun item ↦ (postIterFunc item).bytes.length) target 0 iterator).1.map
          fun item ↦ (postIterFunc item).bytes).flatten := by
      simp [Producer.cat, hlist]
    rw [packedBroadcastProducer]
    split
    · rename_i hfull
      rw [hrest] at hfull
      have hshort := length_rest_lt hfull
      rw [chunks_of_full hfull, List.map_cons, hcat, hrest, ih _ (hn ▸ hshort) _ _ rfl]
    · rename_i hended
      rw [hrest] at hended
      rw [chunks_of_ended hended, hcat, hlist, fill_ended hended, List.length_map]
      by_cases hnil : iterator = []
      · simp [hnil]
      · rw [if_pos (List.length_pos_iff.mpr hnil), if_neg hnil]
        rfl

theorem restoreTensor_bytes (tensor : Tensor δ) (offset : ℕ) :
    restoreTensor ⟨offset, tensor.bytes⟩ tensor.shape tensor.dtype = some tensor := by
  have hpos : 0 < ElementType.itemsize tensor.dtype := ElementType.itemsize_pos _
  have haligned : (if offset % ElementType.itemsize tensor.dtype ≠ 0 then 0 else offset) %
      ElementType.itemsize tensor.dtype = 0 := by
    split_ifs with h
    · exact Nat.zero_mod _
    · exact not_not.mp h
  have hdiv : tensor.bytes.length / ElementType.itemsize tensor.dtype = tensor.shape.prod := by
    rw [tensor.length_bytes, Nat.mul_div_cancel _ hpos]
  have hmod : tensor.bytes.length % ElementType.itemsize tensor.dtype = 0 := by
    rw [tensor.length_bytes, Nat.mul_mod_left]
  exact dif_pos ⟨haligned, hmod, hdiv⟩

section Items

variable (postIterFunc : β → Tensor δ) (name : β → String)

def metaOf (item : β) : String × List ℕ × δ :=
  (name item, (postIterFunc item).shape, (postIterFunc item).dtype)

theorem metaSize_metaOf (item : β) :
    metaSize (metaOf postIterFunc name item) = (postIterFunc item).bytes.length :=
  (postIterFunc item).length_bytes.symm

theorem restore_layOut (offset : ℕ) (items : List β) :
    ((layOut offset (items.map (metaOf postIterFunc name))).zip
      (splitWithSizes.go offset (items.map fun item ↦ (postIterFunc item).bytes).flatten
        (items.map fun item ↦ (postIterFunc item).bytes.length))).mapM
          (fun x ↦ (restoreTensor x.2 x.1.shape x.1.dtype).map (x.1.name, ·)) =
      some (items.map fun item ↦ (name item, postIterFunc item)) := by
  induction items generalizing offset with
  | nil => rfl
  | cons item items ih =>
    have hrest := ih (offset + metaSize (metaOf postIterFunc name item))
    simp only [List.map_cons, layOut, List.flatten_cons, splitWithSizes.go, List.zip_cons_cons,
      List.mapM_cons, List.take_left, List.drop_left, metaSize_metaOf] at hrest ⊢
    simp only [metaOf] at hrest ⊢
    rw [restoreTensor_bytes, hrest]
    rfl

theorem map_tensorSize_layOut (offset : ℕ) (l : List (String × List ℕ × δ)) :
    (layOut offset l).map TensorMeta.tensorSize = l.map metaSize := by
  induction l generalizing offset with
  | nil => rfl
  | cons x l ih => rw [layOut, List.map_cons, List.map_cons, ih]

theorem unpackTensor_packed (items : List β) :
    unpackTensor (items.map fun item ↦ (postIterFunc item).bytes).flatten
        (layOut 0 (items.map (metaOf postIterFunc name))) =
      some (items.map fun item ↦ (name item, postIterFunc item)) := by
  have hsizes : (layOut 0 (items.map (metaOf postIterFunc name))).map TensorMeta.tensorSize =
      items.map fun item ↦ (postIterFunc item).bytes.length := by
    rw [map_tensorSize_layOut, List.map_map]
    exact List.map_congr_left fun item _ ↦ metaSize_metaOf postIterFunc name item
  have hsum : (items.map fun item ↦ (postIterFunc item).bytes.length).sum =
      (items.map fun item ↦ (postIterFunc item).bytes).flatten.length := by
    rw [List.length_flatten, List.map_map]
    rfl
  rw [unpackTensor, hsizes, splitWithSizes, if_pos hsum]
  exact restore_layOut postIterFunc name 0 items

theorem receive_packed {s : Consumer δ} {items : List β} {message : List UInt8}
    (hmessage : message = (items.map fun item ↦ (postIterFunc item).bytes).flatten)
    (hmeta : s.packingTensorMetaData s.bufferIdx =
      layOut 0 (items.map (metaOf postIterFunc name)))
    (hsize : s.packingTensorSizes s.bufferIdx =
      ((items.map (metaOf postIterFunc name)).map metaSize).sum) (incoming : List (List UInt8)) :
    ∃ s' : Consumer δ, s.receive (message :: incoming) =
      some (s', ⟨message.length, items.map fun item ↦ (name item, postIterFunc item)⟩, incoming) := by
  have hlength : message.length = s.packingTensorSizes s.bufferIdx := by
    rw [hsize, hmessage, List.length_flatten, List.map_map, List.map_map]
    refine congrArg List.sum (List.map_congr_left fun item _ ↦ ?_)
    exact (metaSize_metaOf postIterFunc name item).symm
  have hunpack : unpackTensor message (s.packingTensorMetaData s.bufferIdx) =
      some (items.map fun item ↦ (name item, postIterFunc item)) := by
    rw [hmeta, hmessage]
    exact unpackTensor_packed postIterFunc name items
  refine ⟨{ s with packedTensors := Function.update s.packedTensors s.bufferIdx message }, ?_⟩
  rw [Consumer.receive, if_pos hlength, hunpack, hlength]

/-- Fed the metadata of the items and the broadcasts of their chunks, the consumer
takes exactly these. -/
theorem consumer_eq_chunks (target : ℤ) (numBuffers : ℕ+) (items : List β) (s : Consumer δ)
    (later : List (List UInt8)) :
    packedBroadcastConsumer target numBuffers (items.map (metaOf postIterFunc name)) s
        ((chunks (fun item ↦ (postIterFunc item).bytes.length) target items).map
          (fun chunk ↦ (chunk.map fun item ↦ (postIterFunc item).bytes).flatten) ++ later) =
      some ((chunks (fun item ↦ (postIterFunc item).bytes.length) target items).map
        (fun chunk ↦ ⟨(chunk.map fun item ↦ (postIterFunc item).bytes).flatten.length,
          chunk.map fun item ↦ (name item, postIterFunc item)⟩), later) := by
  induction hn : items.length using Nat.strong_induction_on generalizing items s with
  | _ n ih =>
    obtain ⟨hrest, hidx, hmeta, hsum⟩ := Consumer.pack_spec target
      (items.map (metaOf postIterFunc name)) (s.next numBuffers)
    have hempty : (s.next numBuffers).packingTensorMetaData (s.next numBuffers).bufferIdx = [] := by
      simp [Consumer.next]
    have hzero : (s.next numBuffers).packingTensorSizes (s.next numBuffers).bufferIdx = 0 := by
      simp [Consumer.next]
    have hoffset : (s.next numBuffers).offsets (s.next numBuffers).bufferIdx = 0 := by
      simp [Consumer.next]
    have hfill : fill metaSize target 0 (items.map (metaOf postIterFunc name)) = _ :=
      fill_map (metaOf postIterFunc name) (metaSize_metaOf postIterFunc name) 0 items
    rw [hzero, hfill] at hrest hmeta hsum
    rw [hempty, hoffset, List.nil_append, ← hidx] at hmeta
    rw [Nat.zero_add, ← hidx] at hsum
    rw [packedBroadcastConsumer]
    split
    · rename_i hfull
      rw [hrest] at hfull
      have hshort := length_rest_lt hfull
      rw [chunks_of_full hfull, List.map_cons, List.cons_append]
      obtain ⟨s', hreceive⟩ := receive_packed postIterFunc name rfl hmeta hsum
        ((chunks (fun item ↦ (postIterFunc item).bytes.length) target
          (fill (fun item ↦ (postIterFunc item).bytes.length) target 0 items).2.1).map
            (fun chunk ↦ (chunk.map fun item ↦ (postIterFunc item).bytes).flatten) ++ later)
      rw [hreceive]
      simp only [hrest]
      rw [ih _ (hn ▸ hshort) _ _ rfl]
      rfl
    · rename_i hended
      rw [hrest] at hended
      rw [chunks_of_ended hended, hmeta, fill_ended hended]
      by_cases hnil : items = []
      · simp [hnil, layOut]
      · have hlong : 0 < (layOut 0 (items.map (metaOf postIterFunc name))).length := by
          cases items with
          | nil => exact absurd rfl hnil
          | cons item items => simp [layOut]
        rw [if_pos hlong, if_neg hnil, List.map_singleton, List.singleton_append]
        rw [fill_ended hended] at hmeta hsum
        obtain ⟨s', hreceive⟩ := receive_packed postIterFunc name rfl hmeta hsum later
        rw [hreceive]
        rfl

end Items

/-- Producer and consumer cut the same stream into the same broadcasts, whatever
their numbers of buffers, and the consumer hands on every tensor once and in order. -/
theorem packed_broadcast_agrees (target : ℤ) (producerBuffers consumerBuffers : ℕ+)
    (postIterFunc : β → Tensor δ) (name : β → String) (iterator : List β) :
    ∃ received, packedBroadcastConsumer target consumerBuffers
        (iterator.map fun item ↦ (name item, (postIterFunc item).shape, (postIterFunc item).dtype))
        Consumer.init
        (packedBroadcastProducer target producerBuffers postIterFunc iterator Producer.init) =
          some (received, []) ∧
      received.map Received.size =
        (packedBroadcastProducer target producerBuffers postIterFunc iterator Producer.init).map
          List.length ∧
      received.flatMap Received.unpacked =
        iterator.map fun item ↦ (name item, postIterFunc item) := by
  have hconsumed := consumer_eq_chunks postIterFunc name target consumerBuffers iterator
    Consumer.init []
  rw [List.append_nil] at hconsumed
  rw [producer_eq_chunks]
  refine ⟨_, hconsumed, ?_, ?_⟩
  · rw [List.map_map, List.map_map]
    rfl
  · have hall := flatten_chunks (fun item ↦ (postIterFunc item).bytes.length) target iterator
    conv_rhs => rw [← hall, List.map_flatten]
    rw [List.flatMap_map]
    rfl

end NemoRL.Utils.PackedTensor
