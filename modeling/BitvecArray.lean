import BitvecArray.Store
import BitvecArray.Range
import BitvecArray.Ptr
import BitvecArray.Slice
import BitvecArray.Array
import BitvecArray.Macros
import BitvecArray.Array.Traits
import BitvecArray.Array.Ops
import BitvecArray.Array.Iter
import BitvecArray.Array.IterRuns
