import SingleAssignment.Main
import SingleAssignment.Proofs.Settling
import SingleAssignment.Proofs.Reuse
import SingleAssignment.Proofs.Dominance
import SingleAssignment.Proofs.Numbering
import SingleAssignment.Proofs.Representation
import SingleAssignment.Proofs.Mending
import SingleAssignment.Proofs.Steps
import SingleAssignment.Proofs.Branching
import SingleAssignment.Proofs.Defined
import SingleAssignment.Proofs.Acceptance
import SingleAssignment.Proofs.Confluence
import SingleAssignment.Proofs.Warnings
import SingleAssignment.Proofs.Allotment
import SingleAssignment.Proofs.Backpatching
import SingleAssignment.Proofs.Addressing
import SingleAssignment.Proofs.Scope
import SingleAssignment.Proofs.Seclusion
import SingleAssignment.Proofs.Lexing
import SingleAssignment.Proofs.Viability
import SingleAssignment.Proofs.Arena
import SingleAssignment.Proofs.Enumeration
import SingleAssignment.Proofs.Recording
import SingleAssignment.Proofs.Sharing
