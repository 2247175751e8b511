import GraphKernels.Csr
import GraphKernels.PutBack
import GraphKernels.Enumerate
import GraphKernels.Triangles
import GraphKernels.Dispatch
import GraphKernels.SelfLoops
import GraphKernels.Overflow
import GraphKernels.Accounting
import GraphKernels.CPython
import GraphKernels.PageRankResult
import GraphKernels.Actions
